import Nexora.Lib.Double
import Nexora.Lib.Run
import Nexora.Lib.Tally
import Nexora.View.DebugText

/-!
# Aggregated views, kept row by row

An aggregated view keeps for each group of rows how many it has, the sum of its metric column and a
tally of the values in it (`nexora-core/src/incremental_aggregation.rs`). Beside it stand the rows
that are present, in the order in which they have come. The groups are kept under texts, the `Debug`
texts of the columns of a row joined by bars. A row is named by an equal one, whose columns may
print otherwise.
-/

namespace Nexora.View
open Lib List Option Table

/-! ### One group -/

structure OrdF64 where
  value : F64
deriving DecidableEq

theorem OrdF64.key_injective : Function.Injective fun x : OrdF64 => x.value.totalKey := by
  intro x y h
  cases x
  cases y
  exact congrArg mk (F64.totalKey_injective h)

instance instLinearOrderOrdF64 : LinearOrder OrdF64 :=
  LinearOrder.lift' (fun x => x.value.totalKey) OrdF64.key_injective

inductive AggregateFunction where
  | count
  | sum (column : String)
  | avg (column : String)
  | min (column : String)
  | max (column : String)

def AggregateFunction.column? : AggregateFunction → Option String
  | .sum column | .avg column | .min column | .max column => some column
  | .count => none

/-- The arithmetic of doubles. -/
structure F64Ops where
  add : F64 → F64 → F64
  sub : F64 → F64 → F64
  div : F64 → F64 → F64
  ofNat : Nat → F64

structure AggregationState where
  count : Nat
  sum : F64
  values : Tally OrdF64

namespace AggregationState

def new : AggregationState := ⟨0, ⟨0⟩, .empty⟩

section
variable (ops : F64Ops) (state : AggregationState)

/-- The row counts also if it has no value. -/
def addRow (value : Option F64) : AggregationState where
  count := state.count + 1
  sum := value.elim state.sum (ops.add state.sum)
  values := value.elim state.values fun v => state.values.add ⟨v⟩

def removeRow (value : Option F64) : AggregationState :=
  if state.count = 0 then state
  else
    { count := state.count - 1
      sum := value.elim state.sum (ops.sub state.sum)
      values := value.elim state.values fun v => state.values.remove ⟨v⟩ }

def adjustMetric (old new : Option F64) : AggregationState :=
  let sum := old.elim state.sum (ops.sub state.sum)
  let values := old.elim state.values fun v => state.values.remove ⟨v⟩
  { count := state.count
    sum := new.elim sum (ops.add sum)
    values := new.elim values fun v => values.add ⟨v⟩ }

def min : Option F64 := state.values.first?.map OrdF64.value

def max : Option F64 := state.values.last?.map OrdF64.value

def avg : Option F64 :=
  if state.count > 0 then some (ops.div state.sum (ops.ofNat state.count)) else none

end
end AggregationState

/-! ### The view -/

abbrev Row := Table String PropertyValue

inductive RowOperation where
  | insert
  | update (oldRow : Row)
  | delete

def extractNumericValue : Option PropertyValue → Option F64
  | some (.integer i) => some (F64.ofInt i.toInt)
  | some (.float x) => some x
  | _ => none

structure AggregatedMaterializedView where
  groupBy : List String
  aggregates : List AggregateFunction
  groups : Table String AggregationState

/-- A group that is left by its last row is dropped. -/
def leaveState (ops : F64Ops) (group : Option AggregationState) (value : Option F64) :
    Option AggregationState :=
  group.bind fun state =>
    if (state.removeRow ops value).count = 0 then none else some (state.removeRow ops value)

section Groups
variable (ops : F64Ops) (groups : Table String AggregationState) (groupKey : String)

def leaveGroup (value : Option F64) : Table String AggregationState :=
  match groups.find? groupKey with
  | none => groups
  | some state =>
    if (state.removeRow ops value).count = 0 then groups.erase groupKey
    else groups.put groupKey (state.removeRow ops value)

def joinGroup (value : Option F64) : Table String AggregationState :=
  groups.put groupKey (((groups.find? groupKey).getD .new).addRow ops value)

def adjustGroup (old new : Option F64) : Table String AggregationState :=
  groups.put groupKey (((groups.find? groupKey).getD .new).adjustMetric ops old new)

theorem find?_leaveGroup (value : Option F64) (key : String) :
    (leaveGroup ops groups groupKey value).find? key =
      if key = groupKey then leaveState ops (groups.find? groupKey) value
      else groups.find? key := by
  unfold leaveGroup leaveState
  cases hfind : groups.find? groupKey with
  | none =>
    simp only [bind_none]
    split
    · next heq => rw [heq, hfind]
    · rfl
  | some state =>
    simp only [bind_some]
    split
    · exact find?_erase _ _ _
    · exact find?_put _ _ _ _

end Groups

namespace AggregatedMaterializedView
variable (debug : StdDebug) (ops : F64Ops) (view : AggregatedMaterializedView)

def new (groupBy : List String) (aggregates : List AggregateFunction) :
    AggregatedMaterializedView :=
  ⟨groupBy, aggregates, .empty⟩

def groupState (groupKey : String) : Option AggregationState := view.groups.find? groupKey

def metricColumn : Option String := view.aggregates.findSome? AggregateFunction.column?

/-- The values that a row has in the columns of the groups. A column that it does not have is passed
over. -/
def groupValues (row : Row) : List PropertyValue := view.groupBy.filterMap row.find?

def computeGroupKey (row : Row) : String :=
  .ofList (['|'].intercalate ((view.groupValues row).map (PropertyValue.debug debug)))

def metric (row : Row) : Option F64 :=
  view.metricColumn.bind fun col => extractNumericValue (row.find? col)

def processUpdate (row : Row) (operation : RowOperation) : AggregatedMaterializedView :=
  let groupKey := view.computeGroupKey debug row
  { view with
    groups :=
      match operation with
      | .insert => joinGroup ops view.groups groupKey (view.metric row)
      | .delete => leaveGroup ops view.groups groupKey (view.metric row)
      | .update oldRow =>
        let oldGroupKey := view.computeGroupKey debug oldRow
        if oldGroupKey = groupKey then
          adjustGroup ops view.groups groupKey (view.metric oldRow) (view.metric row)
        else
          joinGroup ops (leaveGroup ops view.groups oldGroupKey (view.metric oldRow)) groupKey
            (view.metric row) }

end AggregatedMaterializedView

open AggregatedMaterializedView AggregationState

/-! ### Rows that are present -/

/-- `==` on the values of a column. -/
def sameValue : Option PropertyValue → Option PropertyValue → Bool
  | none, none => true
  | some v, some w => v.eq w
  | _, _ => false

/-- `==` on rows. -/
def SameRow (row other : Row) : Prop := ∀ col, sameValue (row.find? col) (other.find? col) = true

/-- A call of `process_update`, and the place of the row that leaves, if one does, among the rows
that are present. -/
structure Change where
  row : Row
  operation : RowOperation
  place : Nat := 0

namespace Change

/-- The row by which the call names the one that leaves. -/
def named (change : Change) : Option Row :=
  match change.operation with
  | .insert => none
  | .update oldRow => some oldRow
  | .delete => some change.row

def applyTo (change : Change) (rows : List Row) : List Row :=
  match change.operation with
  | .insert => rows ++ [change.row]
  | .update _ => rows.eraseIdx change.place ++ [change.row]
  | .delete => rows.eraseIdx change.place

/-- The call names a row that is present, by itself or by an equal one. -/
def Names (change : Change) (rows : List Row) : Prop :=
  ∀ named ∈ change.named, ∃ present, rows[change.place]? = some present ∧
    (named = present ∨ SameRow named present)

end Change

/-- The state is what rows with these metric values amount to when they are counted anew. -/
structure AggregationState.Summarizes (state : AggregationState) (metrics : List (Option F64)) :
    Prop where
  count : state.count = metrics.length
  occurrences : ∀ v, state.values.count ⟨v⟩ = metrics.count (some v)
  min : ∀ v, state.min = some v ↔
    some v ∈ metrics ∧ ∀ w, some w ∈ metrics → OrdF64.mk v ≤ ⟨w⟩
  max : ∀ v, state.max = some v ↔
    some v ∈ metrics ∧ ∀ w, some w ∈ metrics → OrdF64.mk w ≤ ⟨v⟩

namespace AggregatedMaterializedView
variable (debug : StdDebug) (ops : F64Ops) (view : AggregatedMaterializedView)

def HasColumns (row : Row) : Prop := ∀ col ∈ view.groupBy, (row.find? col).isSome = true

instance instDecidableHasColumns (row : Row) : Decidable (view.HasColumns row) :=
  inferInstanceAs (Decidable (∀ col ∈ view.groupBy, (row.find? col).isSome = true))

/-- The rows print alike in the columns of the groups. -/
def PrintsAs (row other : Row) : Prop :=
  ∀ col ∈ view.groupBy, (row.find? col).map (PropertyValue.debug debug) =
    (other.find? col).map (PropertyValue.debug debug)

instance instDecidablePrintsAs (row other : Row) : Decidable (view.PrintsAs debug row other) :=
  inferInstanceAs (Decidable (∀ col ∈ view.groupBy,
    (row.find? col).map (PropertyValue.debug debug) =
      (other.find? col).map (PropertyValue.debug debug)))

/-- The metric values of the rows that print as one. -/
def groupMetrics (rows : List Row) (row : Row) : List (Option F64) :=
  (rows.filter fun other => view.PrintsAs debug other row).map view.metric

/-- The groups are those of the rows that are present, and each is what its rows amount to. -/
structure Recomputed (rows : List Row) : Prop where
  exists_iff : ∀ groupKey, (view.groupState groupKey).isSome = true ↔
    ∃ row ∈ rows, view.computeGroupKey debug row = groupKey
  summarizes : ∀ row ∈ rows, ∃ state,
    view.groupState (view.computeGroupKey debug row) = some state ∧
      state.Summarizes (view.groupMetrics debug rows row)

end AggregatedMaterializedView

/-! ### One group, row by row -/

namespace AggregationState
variable {ops : F64Ops} {state : AggregationState} {pre post : List (Option F64)}
  {value : Option F64}

structure Counts (state : AggregationState) (metrics : List (Option F64)) : Prop where
  count : state.count = metrics.length
  occurrences : ∀ v, state.values.count ⟨v⟩ = metrics.count (some v)

private theorem counts_new : new.Counts [] := ⟨rfl, fun _ => rfl⟩

variable {metrics : List (Option F64)}

theorem Counts.addRow (h : state.Counts metrics)
    (value : Option F64) : (state.addRow ops value).Counts (metrics ++ [value]) where
  count := by
    rw [length_append, ← h.count]
    rfl
  occurrences v := by
    rw [count_append, ← h.occurrences]
    cases value with
    | none => rfl
    | some w =>
      show (state.values.add ⟨w⟩).count ⟨v⟩ = _
      rw [Tally.count_add, count_singleton]
      by_cases heq : v = w
      · simp [heq]
      · simp [heq, Ne.symm heq]

theorem Counts.removeRow (h : state.Counts (pre ++ value :: post)) :
    (state.removeRow ops value).Counts (pre ++ post) := by
  have hcount : state.count = (pre ++ post).length + 1 := by
    rw [h.count, length_append, length_append, length_cons, Nat.add_assoc]
  rw [AggregationState.removeRow, if_neg (by omega)]
  refine ⟨?_, fun v => ?_⟩
  · show state.count - 1 = _
    omega
  · have hoccurrences := h.occurrences v
    rw [count_append, count_cons] at hoccurrences
    rw [count_append]
    cases value with
    | none => simpa using hoccurrences
    | some w =>
      show (state.values.remove ⟨w⟩).count ⟨v⟩ = _
      rw [Tally.count_remove]
      by_cases heq : v = w
      · simp_all
      · simpa [heq, Ne.symm heq] using hoccurrences

theorem adjustMetric_eq (h : state.count ≠ 0) (old new : Option F64) :
    state.adjustMetric ops old new = (state.removeRow ops old).addRow ops new := by
  have hcount : state.count = state.count - 1 + 1 := by omega
  rw [removeRow, if_neg h, addRow, adjustMetric]
  exact congrArg (fun n => mk n _ _) hcount

theorem map_value_eq_some_iff {x : Option OrdF64} {v : F64} :
    x.map OrdF64.value = some v ↔ x = some ⟨v⟩ := by
  rw [map_eq_some_iff]
  constructor
  · rintro ⟨y, hy, rfl⟩
    exact hy
  · exact fun hx => ⟨⟨v⟩, hx, rfl⟩

theorem Counts.forall_iff (h : state.Counts metrics)
    (r : OrdF64 → OrdF64 → Prop) (v : F64) :
    (0 < state.values.count ⟨v⟩ ∧ ∀ x, 0 < state.values.count x → r ⟨v⟩ x) ↔
      some v ∈ metrics ∧ ∀ w, some w ∈ metrics → r ⟨v⟩ ⟨w⟩ := by
  have hpos : ∀ x : OrdF64, 0 < state.values.count x ↔ some x.value ∈ metrics := fun x => by
    rw [h.occurrences x.value, count_pos_iff]
  simp only [hpos]
  exact and_congr_right fun _ => ⟨fun hr w => hr ⟨w⟩, fun hr x => hr x.value⟩

theorem Counts.summarizes (h : state.Counts metrics) :
    state.Summarizes metrics where
  count := h.count
  occurrences := h.occurrences
  min v := map_value_eq_some_iff.trans
    (Tally.first?_eq_some_iff.trans (h.forall_iff (· ≤ ·) v))
  max v := map_value_eq_some_iff.trans
    (Tally.last?_eq_some_iff.trans (h.forall_iff (fun x y => y ≤ x) v))

end AggregationState

/-- A group that has no row is not there. -/
def GroupHolds (group : Option AggregationState) (metrics : List (Option F64)) : Prop :=
  match group with
  | none => metrics = []
  | some state => metrics ≠ [] ∧ state.Counts metrics

/-- What a call does to a group and to the metric values of its rows, where `Leaves` holds of a
value that is taken out of those before, with those after. The last row leaves whatever value it is
named with. -/
inductive GroupStep (ops : F64Ops)
    (Leaves : Option F64 → List (Option F64) → List (Option F64) → Prop)
    (group : Option AggregationState) :
    List (Option F64) → Option AggregationState → List (Option F64) → Prop where
  | keep (metrics : List (Option F64)) : GroupStep ops Leaves group metrics group metrics
  | join (metrics : List (Option F64)) (value : Option F64) : GroupStep ops Leaves group metrics
      (some ((group.getD .new).addRow ops value)) (metrics ++ [value])
  | leave {pre post : List (Option F64)} {value : Option F64}
      (h : Leaves value (pre ++ value :: post) (pre ++ post)) :
      GroupStep ops Leaves group (pre ++ value :: post) (leaveState ops group value) (pre ++ post)
  | close (value metric : Option F64) :
      GroupStep ops Leaves group [metric] (leaveState ops group value) []
  | adjust {pre post : List (Option F64)} {value : Option F64} (new : Option F64)
      (h : Leaves value (pre ++ value :: post) (pre ++ post)) :
      GroupStep ops Leaves group (pre ++ value :: post)
        (some ((group.getD .new).adjustMetric ops value new)) (pre ++ post ++ [new])

namespace GroupHolds
variable {ops : F64Ops} {group group' : Option AggregationState}
  {metrics metrics' pre post : List (Option F64)} {value : Option F64}

theorem counts_getD (h : GroupHolds group metrics) : (group.getD .new).Counts metrics := by
  cases group with
  | none =>
    have hnil : metrics = [] := h
    rw [hnil]
    exact counts_new
  | some state => exact h.2

theorem leaveState_singleton {metric : Option F64} (h : GroupHolds group [metric]) :
    leaveState ops group value = none := by
  cases group with
  | none => rfl
  | some state =>
    have hcount : state.count = 1 := h.2.count
    simp [leaveState, removeRow, hcount]

theorem leave (h : GroupHolds group (pre ++ value :: post)) :
    GroupHolds (leaveState ops group value) (pre ++ post) := by
  cases group with
  | none =>
    have hnil : pre ++ value :: post = [] := h
    simp at hnil
  | some state =>
    have hcounts : (state.removeRow ops value).Counts (pre ++ post) := h.2.removeRow
    rw [leaveState, bind_some]
    split
    · next hzero => exact length_eq_zero_iff.mp (hcounts.count ▸ hzero)
    · next hne => exact ⟨fun hnil => hne (by rw [hcounts.count, hnil]; rfl), hcounts⟩

theorem adjust (h : GroupHolds group (pre ++ value :: post)) (new : Option F64) :
    GroupHolds (some ((group.getD .new).adjustMetric ops value new)) (pre ++ post ++ [new]) := by
  have hcounts := h.counts_getD
  have hne : (group.getD .new).count ≠ 0 := by
    rw [hcounts.count]
    simp
  rw [adjustMetric_eq hne]
  exact ⟨by simp, hcounts.removeRow.addRow new⟩

theorem step {Leaves : Option F64 → List (Option F64) → List (Option F64) → Prop}
    (h : GroupHolds group metrics) (hstep : GroupStep ops Leaves group metrics group' metrics') :
    GroupHolds group' metrics' := by
  cases hstep with
  | keep => exact h
  | join _ value => exact ⟨by simp, h.counts_getD.addRow value⟩
  | leave => exact h.leave
  | close value metric =>
    rw [h.leaveState_singleton]
    exact rfl
  | adjust new => exact h.adjust new

end GroupHolds

/-! ### Groups and their keys -/

namespace AggregatedMaterializedView
variable {debug : StdDebug} {view : AggregatedMaterializedView} {row other : Row}

/-- **Keys are the same** exactly if the texts of the values that the rows have are. -/
theorem computeGroupKey_eq_iff (h : debug.Documented) :
    view.computeGroupKey debug row = view.computeGroupKey debug other ↔
      (view.groupValues row).map (PropertyValue.debug debug) =
        (view.groupValues other).map (PropertyValue.debug debug) := by
  constructor
  · intro heq
    have hne : ∀ v : PropertyValue, v.debug debug ≠ [] := fun v hnil =>
      v.debug_start debug [] (by rw [hnil]; exact atStop_nil)
    have hlists := forall₂_of_intercalate_eq (by simp [StdDebug.stops])
      (fun v _ w _ => (v.debug_reads h w).texts) hne (String.ofList_injective heq)
    rwa [← forall₂_eq_eq_eq, forall₂_map_left_iff, forall₂_map_right_iff]
  · intro heq
    rw [computeGroupKey, heq, computeGroupKey]

theorem texts_eq_iff (h : ∀ col ∈ view.groupBy,
      (row.find? col).isSome = (other.find? col).isSome) :
    (view.groupValues row).map (PropertyValue.debug debug) =
        (view.groupValues other).map (PropertyValue.debug debug) ↔
      view.PrintsAs debug row other := by
  unfold groupValues PrintsAs
  generalize view.groupBy = columns at h
  induction columns with
  | nil => simp
  | cons col columns ih =>
    obtain ⟨hcol, hcolumns⟩ := forall_mem_cons.mp h
    have hrest := ih hcolumns
    rw [forall_mem_cons, ← hrest]
    cases hrow : row.find? col with
    | none =>
      rw [hrow] at hcol
      have hother : other.find? col = none := by simpa using hcol.symm
      simp [hrow, hother]
    | some v =>
      rw [hrow] at hcol
      obtain ⟨w, hother⟩ := isSome_iff_exists.mp hcol.symm
      simp [hrow, hother]

theorem HasColumns.computeGroupKey_eq_iff (hdebug : debug.Documented) (h : view.HasColumns row)
    (h' : view.HasColumns other) :
    view.computeGroupKey debug row = view.computeGroupKey debug other ↔
      view.PrintsAs debug row other :=
  (AggregatedMaterializedView.computeGroupKey_eq_iff hdebug).trans
    (texts_eq_iff fun col hcol => (h col hcol).trans (h' col hcol).symm)

/-! ### All groups -/

variable (debug view) in
/-- The metric values of the rows with a key, in the order in which the rows have come. -/
def metricsOf (rows : List Row) (groupKey : String) : List (Option F64) :=
  (rows.filter fun row => view.computeGroupKey debug row = groupKey).map view.metric

variable {rows : List Row} {place : Nat} {present : Row}

theorem metricsOf_append (rows more : List Row) (groupKey : String) :
    view.metricsOf debug (rows ++ more) groupKey =
      view.metricsOf debug rows groupKey ++ view.metricsOf debug more groupKey := by
  simp [metricsOf]

theorem metricsOf_cons (row : Row) (rows : List Row) (groupKey : String) :
    view.metricsOf debug (row :: rows) groupKey =
      if groupKey = view.computeGroupKey debug row then
        view.metric row :: view.metricsOf debug rows groupKey
      else view.metricsOf debug rows groupKey := by
  unfold metricsOf
  by_cases heq : groupKey = view.computeGroupKey debug row
  · simp [heq]
  · simp [heq, Ne.symm heq]

variable (debug view) in
/-- The row at a place is one of its group, and of no other. -/
theorem exists_metricsOf (h : rows[place]? = some present) (groupKey : String) :
    ∃ pre post, view.metricsOf debug (rows.eraseIdx place) groupKey = pre ++ post ∧
      view.metricsOf debug rows groupKey =
        if groupKey = view.computeGroupKey debug present then pre ++ view.metric present :: post
        else pre ++ post := by
  obtain ⟨hlt, hget⟩ := List.getElem?_eq_some_iff.mp h
  have hrows : rows = rows.take place ++ present :: rows.drop (place + 1) := by
    rw [← hget, getElem_cons_drop, take_append_drop]
  refine ⟨view.metricsOf debug (rows.take place) groupKey,
    view.metricsOf debug (rows.drop (place + 1)) groupKey, ?_, ?_⟩
  · rw [eraseIdx_eq_take_drop_succ, metricsOf_append]
  · conv_lhs => rw [hrows, metricsOf_append, metricsOf_cons]
    split <;> rfl

variable (debug view) in
def Kept (rows : List Row) : Prop :=
  ∀ groupKey, GroupHolds (view.groupState groupKey) (view.metricsOf debug rows groupKey)

variable {ops : F64Ops}

section
variable {Leaves : Option F64 → List (Option F64) → List (Option F64) → Prop} {named : Row}

theorem find?_joinGroup (groups : Table String AggregationState) (value : Option F64)
    (key groupKey : String) : (joinGroup ops groups key value).find? groupKey =
      if groupKey = key then some (((groups.find? key).getD .new).addRow ops value)
      else groups.find? groupKey :=
  find?_put _ _ _ _

theorem groupState_update (oldRow row : Row) (groupKey : String) :
    (view.processUpdate debug ops row (.update oldRow)).groupState groupKey =
      if view.computeGroupKey debug oldRow = view.computeGroupKey debug row then
        if groupKey = view.computeGroupKey debug row then
          some (((view.groupState groupKey).getD .new).adjustMetric ops (view.metric oldRow)
            (view.metric row))
        else view.groupState groupKey
      else if groupKey = view.computeGroupKey debug row then
        some (((view.groupState groupKey).getD .new).addRow ops (view.metric row))
      else (leaveGroup ops view.groups (view.computeGroupKey debug oldRow)
        (view.metric oldRow)).find? groupKey := by
  show (if _ then _ else _ : Table String AggregationState).find? groupKey = _
  split
  · rw [adjustGroup, find?_put]
    split
    · next heq => rw [← heq, groupState]
    · rfl
  · next hother =>
    rw [find?_joinGroup]
    split
    · next heq => rw [find?_leaveGroup, if_neg (Ne.symm hother), ← heq, groupState]
    · rfl

theorem metricsOf_append_singleton (rows : List Row) (row : Row) (groupKey : String) :
    view.metricsOf debug (rows ++ [row]) groupKey =
      if groupKey = view.computeGroupKey debug row then
        view.metricsOf debug rows groupKey ++ [view.metric row]
      else view.metricsOf debug rows groupKey := by
  rw [metricsOf_append, metricsOf_cons]
  split
  · rfl
  · exact append_nil _

variable (debug view) in
/-- The row at the place leaves its group under the metric value of the named one: it is its own, or
the row is the last one of the group. -/
def Takes (Leaves : Option F64 → List (Option F64) → List (Option F64) → Prop) (rows : List Row)
    (place : Nat) (named present : Row) : Prop :=
  let groupKey := view.computeGroupKey debug named
  view.metric named = view.metric present ∧
      Leaves (view.metric named) (view.metricsOf debug rows groupKey)
        (view.metricsOf debug (rows.eraseIdx place) groupKey) ∨
    view.metricsOf debug (rows.eraseIdx place) groupKey = []

theorem groupStep_leaveGroup (hpresent : rows[place]? = some present)
    (hkey : view.computeGroupKey debug named = view.computeGroupKey debug present)
    (htakes : view.Takes debug Leaves rows place named present) (groupKey : String) :
    GroupStep ops Leaves (view.groupState groupKey) (view.metricsOf debug rows groupKey)
      ((leaveGroup ops view.groups (view.computeGroupKey debug named)
        (view.metric named)).find? groupKey)
      (view.metricsOf debug (rows.eraseIdx place) groupKey) := by
  obtain ⟨pre, post, herase, hrows⟩ := view.exists_metricsOf debug hpresent groupKey
  rw [find?_leaveGroup]
  by_cases heq : groupKey = view.computeGroupKey debug named
  · rw [if_pos (heq.trans hkey)] at hrows
    rw [if_pos heq, hrows, herase, ← heq]
    simp only [Takes, ← heq, hrows, herase] at htakes
    obtain ⟨hmetric, hleaves⟩ | hlast := htakes
    · rw [hmetric] at hleaves ⊢
      exact .leave hleaves
    · obtain ⟨rfl, rfl⟩ := append_eq_nil_iff.mp hlast
      exact .close _ _
  · rw [if_neg (hkey ▸ heq)] at hrows
    rw [if_neg heq, hrows, herase]
    exact .keep _

variable (Leaves) in
/-- **The step of a call**: what it does to the group of a key, if it names the row that leaves by
one with the same key. -/
theorem groupStep_processUpdate {change : Change}
    (hnamed : ∀ named ∈ change.named, ∃ present, rows[change.place]? = some present ∧
      view.computeGroupKey debug named = view.computeGroupKey debug present ∧
      view.Takes debug Leaves rows change.place named present)
    (hstays : ∀ oldRow, change.operation = .update oldRow →
      view.computeGroupKey debug oldRow = view.computeGroupKey debug change.row →
      ∀ present, rows[change.place]? = some present →
      view.metric oldRow = view.metric present ∧
        Leaves (view.metric oldRow)
          (view.metricsOf debug rows (view.computeGroupKey debug oldRow))
          (view.metricsOf debug (rows.eraseIdx change.place)
            (view.computeGroupKey debug oldRow)))
    (groupKey : String) :
    GroupStep ops Leaves (view.groupState groupKey) (view.metricsOf debug rows groupKey)
      ((view.processUpdate debug ops change.row change.operation).groupState groupKey)
      (view.metricsOf debug (change.applyTo rows) groupKey) := by
  obtain ⟨row, operation, place⟩ := change
  cases operation with
  | insert =>
    show GroupStep _ _ _ _ ((joinGroup ops view.groups _ _).find? groupKey)
      (view.metricsOf debug (rows ++ [row]) groupKey)
    rw [find?_joinGroup, metricsOf_append_singleton]
    split
    · next heq =>
      rw [← heq]
      exact .join _ _
    · exact .keep _
  | delete =>
    obtain ⟨present, hpresent, hkey, htakes⟩ := hnamed row rfl
    exact groupStep_leaveGroup hpresent hkey htakes groupKey
  | update oldRow =>
    obtain ⟨present, hpresent, hkey, htakes⟩ := hnamed oldRow rfl
    show GroupStep _ _ _ _ _ (view.metricsOf debug (rows.eraseIdx place ++ [row]) groupKey)
    rw [groupState_update, metricsOf_append_singleton]
    obtain ⟨pre, post, herase, hrows⟩ := view.exists_metricsOf debug hpresent groupKey
    split
    · next hsame =>
      obtain ⟨hmetric, hleaves⟩ := hstays oldRow rfl hsame present hpresent
      rw [herase]
      by_cases heq : groupKey = view.computeGroupKey debug row
      · have hold := heq.trans hsame.symm
        rw [← hold, herase, hrows, if_pos (hold.trans hkey), hmetric] at hleaves
        rw [if_pos heq, if_pos heq, hrows, if_pos (hold.trans hkey), hmetric]
        exact .adjust _ hleaves
      · rw [if_neg heq, if_neg heq, hrows, if_neg (hkey ▸ hsame ▸ heq)]
        exact .keep _
    · next hother =>
      split
      · next heq =>
        have hnot : groupKey ≠ view.computeGroupKey debug oldRow := fun h => hother (h ▸ heq)
        rw [herase, hrows, if_neg (hkey ▸ hnot)]
        exact .join _ _
      · exact groupStep_leaveGroup hpresent hkey htakes groupKey

end

end AggregatedMaterializedView

/-! ### Histories -/

structure Maintained where
  view : AggregatedMaterializedView
  rows : List Row

namespace Maintained
variable (debug : StdDebug) (ops : F64Ops)

def step (s : Maintained) (change : Change) : Maintained where
  view := s.view.processUpdate debug ops change.row change.operation
  rows := change.applyTo s.rows

/-- The change names a row that is present, and its row has all columns of the groups. -/
def Valid (s : Maintained) (change : Change) : Prop :=
  change.Names s.rows ∧ s.view.HasColumns change.row

/-- The row that leaves is the last one of its group, and none comes to it. -/
def EndsGroup (s : Maintained) (change : Change) (present : Row) : Prop :=
  (∀ other ∈ s.rows.eraseIdx change.place, ¬ s.view.PrintsAs debug other present) ∧
    ∀ oldRow, change.operation = .update oldRow → ¬ s.view.PrintsAs debug change.row present

/-- A row is named as the one that leaves prints in the columns of the groups and with its metric
value, unless a group ends with it. -/
def NamedAlike (s : Maintained) (change : Change) : Prop :=
  ∀ named ∈ change.named, ∀ present, s.rows[change.place]? = some present →
    s.view.PrintsAs debug named present ∧
      (s.view.metric named = s.view.metric present ∨ s.EndsGroup debug change present)

structure Inv (s : Maintained) : Prop where
  kept : s.view.Kept debug s.rows
  columns : ∀ row ∈ s.rows, s.view.HasColumns row

end Maintained

/-! ### What is recomputed -/

namespace AggregatedMaterializedView
variable {debug : StdDebug} {view : AggregatedMaterializedView} {rows : List Row}
  (hdebug : debug.Documented) (hcolumns : ∀ row ∈ rows, view.HasColumns row)

include hdebug hcolumns

theorem metricsOf_eq_groupMetrics {row : Row} (hrow : view.HasColumns row) :
    view.metricsOf debug rows (view.computeGroupKey debug row) =
      view.groupMetrics debug rows row := by
  unfold metricsOf groupMetrics
  congr 1
  refine filter_congr fun other hother => ?_
  simp only [decide_eq_decide]
  exact (hcolumns other hother).computeGroupKey_eq_iff hdebug hrow

theorem metricsOf_eq_nil_iff {row : Row} (hrow : view.HasColumns row) :
    view.metricsOf debug rows (view.computeGroupKey debug row) = [] ↔
      ∀ other ∈ rows, ¬ view.PrintsAs debug other row := by
  rw [metricsOf_eq_groupMetrics hdebug hcolumns hrow, groupMetrics, map_eq_nil_iff,
    filter_eq_nil_iff]
  simp

/-- What is kept is what a recomputation gives. -/
theorem recomputed_iff_kept : view.Recomputed debug rows ↔ view.Kept debug rows := by
  have hmem : ∀ {groupKey}, view.metricsOf debug rows groupKey ≠ [] ↔
      ∃ row ∈ rows, view.computeGroupKey debug row = groupKey := by
    intro groupKey
    rw [metricsOf, ne_eq, map_eq_nil_iff, filter_eq_nil_iff]
    simp
  constructor
  · intro h groupKey
    cases hstate : view.groupState groupKey with
    | none =>
      by_contra hne
      have hsome := (h.exists_iff groupKey).mpr (hmem.mp hne)
      rw [hstate] at hsome
      cases hsome
    | some state =>
      obtain ⟨row, hrow, rfl⟩ := (h.exists_iff groupKey).mp (by rw [hstate]; rfl)
      obtain ⟨state', hstate', hsummarizes⟩ := h.summarizes row hrow
      rw [← metricsOf_eq_groupMetrics hdebug hcolumns (hcolumns row hrow)] at hsummarizes
      cases hstate.symm.trans hstate'
      exact ⟨hmem.mpr ⟨row, hrow, rfl⟩, hsummarizes.count, hsummarizes.occurrences⟩
  · intro h
    refine ⟨fun groupKey => ?_, fun row hrow => ?_⟩
    · rw [← hmem]
      have hgroup := h groupKey
      cases hstate : view.groupState groupKey with
      | none =>
        rw [hstate] at hgroup
        exact iff_of_false Bool.false_ne_true (not_not.mpr hgroup)
      | some state =>
        rw [hstate] at hgroup
        exact iff_of_true rfl hgroup.1
    · have hgroup := h (view.computeGroupKey debug row)
      cases hstate : view.groupState (view.computeGroupKey debug row) with
      | none =>
        rw [hstate] at hgroup
        exact absurd hgroup (hmem.mpr ⟨row, hrow, rfl⟩)
      | some state =>
        rw [hstate, metricsOf_eq_groupMetrics hdebug hcolumns (hcolumns row hrow)] at hgroup
        exact ⟨state, rfl, hgroup.2.summarizes⟩

end AggregatedMaterializedView

/-! ### A row that is named otherwise -/

private theorem extractNumericValue_isSome_of_sameValue {x y : Option PropertyValue}
    (h : sameValue x y = true) :
    (extractNumericValue x).isSome = (extractNumericValue y).isSome := by
  cases x with
  | none =>
    cases y with
    | none => rfl
    | some w => cases h
  | some v =>
    cases y with
    | none => cases h
    | some w =>
      change v.eq w = true at h
      cases v with
      | integer _ | float _ =>
        cases w with
        | integer _ | float _ => simp only [extractNumericValue, isSome_some]
        | _ => cases h
      | _ =>
        cases w with
        | integer _ | float _ => cases h
        | _ => rfl

theorem sameValue_isSome {x y : Option PropertyValue} (h : sameValue x y = true) :
    x.isSome = y.isSome := by
  cases x <;> cases y <;> first | rfl | cases h

namespace GroupHolds
variable {ops : F64Ops} {group : Option AggregationState}
  {metrics metrics' pre post : List (Option F64)} {value old : Option F64}

theorem length_eq (h : GroupHolds group metrics) (h' : GroupHolds group metrics') :
    metrics.length = metrics'.length :=
  h.counts_getD.count.symm.trans h'.counts_getD.count

private theorem length_addRow_eq (h : GroupHolds group metrics)
    (h' : GroupHolds (some ((group.getD .new).addRow ops value)) metrics') :
    metrics.length + 1 = metrics'.length := by
  rw [← h.counts_getD.count, ← h'.2.count]
  rfl

variable (ops) in
/-- A value that is taken out in the place of another leaves the other one there. -/
theorem count_removeRow {x y : F64} {state : AggregationState} (hne : x ≠ y)
    (h : state.Counts (pre ++ some y :: post)) :
    (state.removeRow ops (some x)).values.count ⟨y⟩ = (pre ++ post).count (some y) + 1 := by
  have hcount : state.count ≠ 0 := by
    rw [h.count]
    simp
  have hoccurrences := h.occurrences y
  rw [count_append, count_cons_self, ← Nat.add_assoc, ← count_append] at hoccurrences
  rw [removeRow, if_neg hcount]
  show (state.values.remove ⟨x⟩).count ⟨y⟩ = _
  rw [Tally.count_remove, hoccurrences]
  simp [Ne.symm hne]

theorem eq_nil_of_leaveState {x y : F64} (hne : x ≠ y)
    (h : GroupHolds group (pre ++ some y :: post))
    (h' : GroupHolds (leaveState ops group (some x)) (pre ++ post)) : pre ++ post = [] := by
  cases group with
  | none => exact h'
  | some state =>
    rw [leaveState, bind_some] at h'
    split at h'
    · exact h'
    · have hcount := count_removeRow ops hne h.2
      rw [h'.2.occurrences y] at hcount
      omega

theorem not_adjustMetric {x y : F64} (hne : x ≠ y) (h : GroupHolds group (pre ++ some y :: post))
    (new : Option F64) :
    ¬ GroupHolds (some ((group.getD .new).adjustMetric ops (some x) new))
    (pre ++ post ++ [new]) := by
  intro h'
  have hcounts := h.counts_getD
  have hpos : (group.getD .new).count ≠ 0 := by
    rw [hcounts.count]
    simp
  rw [adjustMetric_eq hpos] at h'
  have hafter := h'.2.occurrences y
  have hremoved := count_removeRow ops hne hcounts
  cases new with
  | none =>
    rw [count_append, count_singleton, if_neg (by simp)] at hafter
    exact absurd (hremoved.symm.trans hafter) (by omega)
  | some z =>
    change (((group.getD .new).removeRow ops (some x)).values.add ⟨z⟩).count ⟨y⟩ = _ at hafter
    rw [Tally.count_add, count_append, count_singleton] at hafter
    by_cases hz : z = y
    · simp [hz, hremoved] at hafter
    · simp [hz, Ne.symm hz, hremoved] at hafter

end GroupHolds

namespace Maintained
variable {debug : StdDebug} {ops : F64Ops} {s : Maintained} {change : Change}

private theorem isSome_metric {view : AggregatedMaterializedView} {named present : Row}
    (h : named = present ∨ SameRow named present) :
    (view.metric named).isSome = (view.metric present).isSome := by
  obtain rfl | hsame := h
  · rfl
  · rw [metric, metric]
    cases view.metricColumn with
    | none => rfl
    | some col => exact extractNumericValue_isSome_of_sameValue (hsame col)

theorem hasColumns_named {view : AggregatedMaterializedView} {named present : Row}
    (h : named = present ∨ SameRow named present) (hpresent : view.HasColumns present) :
    view.HasColumns named := by
  obtain rfl | hsame := h
  · exact hpresent
  · exact fun col hcol => (sameValue_isSome (hsame col)).trans (hpresent col hcol)

section
variable {named present : Row} (hkept : s.view.Kept debug s.rows)
  (hafter : (s.step debug ops change).view.Kept debug (s.step debug ops change).rows)
  (hnamed : change.named = some named) (hpresent : s.rows[change.place]? = some present)

include hkept hafter hnamed hpresent

/-- A row that is named under another key is not taken out of its group. -/
theorem computeGroupKey_eq_of_kept :
    s.view.computeGroupKey debug named = s.view.computeGroupKey debug present := by
  by_contra hne
  obtain ⟨pre, post, herase, hrows⟩ :=
    s.view.exists_metricsOf debug hpresent (s.view.computeGroupKey debug present)
  have hbefore := hkept (s.view.computeGroupKey debug present)
  have hgroup := hafter (s.view.computeGroupKey debug present)
  rw [hrows, if_pos rfl] at hbefore
  have hlength : (pre ++ post).length + 1 = (pre ++ s.view.metric present :: post).length := by
    simp
    omega
  obtain ⟨row, operation, place⟩ := change
  cases operation with
  | insert => cases hnamed
  | delete =>
    cases hnamed
    change GroupHolds ((leaveGroup ops s.view.groups _ _).find? _)
      (s.view.metricsOf debug (s.rows.eraseIdx place) _) at hgroup
    rw [find?_leaveGroup, if_neg (Ne.symm hne), herase] at hgroup
    have hsame := hbefore.length_eq hgroup
    omega
  | update oldRow =>
    cases hnamed
    change GroupHolds ((s.view.processUpdate debug ops row _).groupState _)
      (s.view.metricsOf debug (s.rows.eraseIdx place ++ [row]) _) at hgroup
    rw [groupState_update,
      metricsOf_append_singleton, herase, find?_leaveGroup,
      if_neg (Ne.symm hne)] at hgroup
    by_cases hrow : s.view.computeGroupKey debug present = s.view.computeGroupKey debug row
    · rw [if_neg (hrow ▸ hne), if_pos hrow, if_pos hrow] at hgroup
      have hsame := hbefore.length_addRow_eq hgroup
      rw [@length_append _ (pre ++ post), length_singleton] at hsame
      omega
    · rw [if_neg hrow, if_neg hrow, if_neg hrow] at hgroup
      have hsame := hbefore.length_eq ((ite_self _) ▸ hgroup)
      omega

/-- A row that is named with another metric value is the last one of its group, and leaves it. -/
private theorem eq_nil_of_kept {x y : F64} (hx : s.view.metric named = some x)
    (hy : s.view.metric present = some y) (hne : x ≠ y) :
    s.view.metricsOf debug (s.rows.eraseIdx change.place)
        (s.view.computeGroupKey debug present) = [] ∧
      ∀ oldRow, change.operation = .update oldRow →
        s.view.computeGroupKey debug change.row ≠ s.view.computeGroupKey debug present := by
  have hkey := computeGroupKey_eq_of_kept hkept hafter hnamed hpresent
  obtain ⟨pre, post, herase, hrows⟩ :=
    s.view.exists_metricsOf debug hpresent (s.view.computeGroupKey debug present)
  have hbefore := hkept (s.view.computeGroupKey debug present)
  have hgroup := hafter (s.view.computeGroupKey debug present)
  rw [hrows, if_pos rfl, hy] at hbefore
  rw [herase]
  obtain ⟨row, operation, place⟩ := change
  cases operation with
  | insert => cases hnamed
  | delete =>
    cases hnamed
    change GroupHolds ((leaveGroup ops s.view.groups _ _).find? _)
      (s.view.metricsOf debug (s.rows.eraseIdx place) _) at hgroup
    rw [find?_leaveGroup, if_pos hkey.symm, hkey, hx, herase] at hgroup
    exact ⟨hbefore.eq_nil_of_leaveState hne hgroup, fun _ h => nomatch h⟩
  | update oldRow =>
    cases hnamed
    change GroupHolds ((s.view.processUpdate debug ops row _).groupState _)
      (s.view.metricsOf debug (s.rows.eraseIdx place ++ [row]) _) at hgroup
    rw [groupState_update,
      metricsOf_append_singleton, herase, find?_leaveGroup,
      if_pos hkey.symm, hkey, hx] at hgroup
    by_cases hrow : s.view.computeGroupKey debug present = s.view.computeGroupKey debug row
    · rw [if_pos hrow, if_pos hrow, if_pos hrow] at hgroup
      exact absurd hgroup (hbefore.not_adjustMetric hne _)
    · rw [if_neg hrow, if_neg hrow, if_neg hrow] at hgroup
      exact ⟨hbefore.eq_nil_of_leaveState hne hgroup, fun _ _ => Ne.symm hrow⟩

end

theorem hasColumns_step (h : s.Inv debug) (hvalid : s.Valid change) :
    ∀ row ∈ (s.step debug ops change).rows, (s.step debug ops change).view.HasColumns row := by
  intro row hrow
  have hold : row = change.row ∨ row ∈ s.rows := by
    obtain ⟨new, operation, place⟩ := change
    cases operation with
    | insert => exact (mem_append.mp hrow).symm.imp_left mem_singleton.mp
    | delete => exact Or.inr (mem_of_mem_eraseIdx hrow)
    | update oldRow =>
      exact (mem_append.mp hrow).symm.imp mem_singleton.mp mem_of_mem_eraseIdx
  exact hold.elim (fun heq => heq ▸ hvalid.2) (h.columns row)

variable (ops) in
/-- What a change that names its row alike does to a group, if `Leaves` holds of what it takes
out. -/
theorem Inv.groupStep (Leaves : Option F64 → List (Option F64) → List (Option F64) → Prop)
    (hdebug : debug.Documented) (h : s.Inv debug) (hvalid : s.Valid change)
    (halike : s.NamedAlike debug change)
    (hleaves : ∀ named ∈ change.named, ∀ present, s.rows[change.place]? = some present →
      Leaves (s.view.metric named) (s.view.groupMetrics debug s.rows present)
          (s.view.groupMetrics debug (s.rows.eraseIdx change.place) present) ∨
        s.EndsGroup debug change present) (groupKey : String) :
    GroupStep ops Leaves (s.view.groupState groupKey) (s.view.metricsOf debug s.rows groupKey)
      ((s.step debug ops change).view.groupState groupKey)
      ((s.step debug ops change).view.metricsOf debug (s.step debug ops change).rows groupKey) := by
  have hrest : ∀ row ∈ s.rows.eraseIdx change.place, s.view.HasColumns row :=
    fun row hrow => h.columns row (mem_of_mem_eraseIdx hrow)
  refine groupStep_processUpdate Leaves ?_ ?_ groupKey
  · intro named hnamed
    obtain ⟨present, hpresent, hvalues⟩ := hvalid.1 named hnamed
    have hcolumns := h.columns present (mem_of_getElem? hpresent)
    obtain ⟨hprints, hmetric⟩ := halike named hnamed present hpresent
    have hkey := ((hasColumns_named hvalues hcolumns).computeGroupKey_eq_iff hdebug hcolumns).mpr
      hprints
    refine ⟨present, hpresent, hkey, ?_⟩
    simp only [Takes, hkey]
    rw [metricsOf_eq_nil_iff hdebug hrest hcolumns,
      metricsOf_eq_groupMetrics hdebug h.columns hcolumns,
      metricsOf_eq_groupMetrics hdebug hrest hcolumns]
    have hleft := hleaves named hnamed present hpresent
    by_cases hends : s.EndsGroup debug change present
    · exact .inr hends.1
    · exact .inl ⟨hmetric.resolve_right hends, hleft.resolve_right hends⟩
  · intro oldRow hupdate hstays present hpresent
    have hnamed : oldRow ∈ change.named := by
      rw [Change.named, hupdate]
      rfl
    obtain ⟨present', hpresent', hvalues⟩ := hvalid.1 oldRow hnamed
    cases hpresent.symm.trans hpresent'
    have hcolumns := h.columns present (mem_of_getElem? hpresent)
    obtain ⟨hprints, hmetric⟩ := halike oldRow hnamed present hpresent
    have hkey := ((hasColumns_named hvalues hcolumns).computeGroupKey_eq_iff hdebug hcolumns).mpr
      hprints
    have hnot : ¬ s.EndsGroup debug change present := fun hends => hends.2 oldRow hupdate
      ((hvalid.2.computeGroupKey_eq_iff hdebug hcolumns).mp (hstays.symm.trans hkey))
    rw [hkey, metricsOf_eq_groupMetrics hdebug h.columns hcolumns,
      metricsOf_eq_groupMetrics hdebug hrest hcolumns]
    exact ⟨hmetric.resolve_right hnot,
      (hleaves oldRow hnamed present hpresent).resolve_right hnot⟩

theorem Inv.step (hdebug : debug.Documented) (h : s.Inv debug) (hvalid : s.Valid change)
    (halike : s.NamedAlike debug change) : (s.step debug ops change).Inv debug where
  kept groupKey := (h.kept groupKey).step
    (h.groupStep ops (fun _ _ _ => True) hdebug hvalid halike (fun _ _ _ _ => .inl trivial)
      groupKey)
  columns := hasColumns_step h hvalid

theorem Inv.recomputed (hdebug : debug.Documented) (h : s.Inv debug) :
    s.view.Recomputed debug s.rows :=
  (recomputed_iff_kept hdebug h.columns).mpr h.kept

theorem namedAlike_of_recomputed (hdebug : debug.Documented) (h : s.Inv debug)
    (hvalid : s.Valid change)
    (hafter : (s.step debug ops change).view.Recomputed debug (s.step debug ops change).rows) :
    s.NamedAlike debug change := by
  intro named hnamed present hpresent
  obtain ⟨present', hpresent', hvalues⟩ := hvalid.1 named hnamed
  cases hpresent.symm.trans hpresent'
  have hkept := (recomputed_iff_kept hdebug
    (hasColumns_step h hvalid)).mp hafter
  have hcolumns := h.columns present (mem_of_getElem? hpresent)
  have hkey := computeGroupKey_eq_of_kept h.kept hkept hnamed hpresent
  refine ⟨((hasColumns_named hvalues hcolumns).computeGroupKey_eq_iff hdebug hcolumns).mp hkey,
    or_iff_not_imp_left.mpr fun hne => ?_⟩
  -- values of equal rows are both there, and differ
  have hsome := @isSome_metric s.view _ _ hvalues
  obtain ⟨x, y, hx, hy, hxy⟩ : ∃ x y, s.view.metric named = some x ∧
      s.view.metric present = some y ∧ x ≠ y := by
    cases hx : s.view.metric named with
    | none =>
      rw [hx] at hne hsome
      exact absurd (not_isSome_iff_eq_none.mp (hsome ▸ Bool.false_ne_true)).symm hne
    | some x =>
      rw [hx] at hne hsome
      obtain ⟨y, hy⟩ := isSome_iff_exists.mp hsome.symm
      exact ⟨x, y, rfl, hy, fun heq => hne (heq ▸ hy.symm)⟩
  obtain ⟨hlast, hmoves⟩ := eq_nil_of_kept h.kept hkept hnamed hpresent hx hy hxy
  refine ⟨(metricsOf_eq_nil_iff hdebug
    (fun row hrow => h.columns row (mem_of_mem_eraseIdx hrow)) hcolumns).mp hlast, ?_⟩
  exact fun oldRow hupdate hprints => hmoves oldRow hupdate
    ((hvalid.2.computeGroupKey_eq_iff hdebug hcolumns).mpr hprints)

end Maintained

/-- **The view is what a recomputation gives** all along a history of changes that name rows that
are present, with all columns of the groups, exactly if each of them names its row by one that
prints as it in these columns and has its metric value, or that is the last one of a group and
leaves it. -/
theorem forall_recomputed_iff_along {debug : StdDebug} (hdebug : debug.Documented) (ops : F64Ops)
    (groupBy : List String) (aggregates : List AggregateFunction) {changes : List Change}
    (h : Along (Maintained.step debug ops) Maintained.Valid ⟨.new groupBy aggregates, []⟩
      changes) :
    (∀ k, (run (Maintained.step debug ops) ⟨.new groupBy aggregates, []⟩
        (changes.take k)).view.Recomputed debug
          (run (Maintained.step debug ops) ⟨.new groupBy aggregates, []⟩ (changes.take k)).rows) ↔
      Along (Maintained.step debug ops) (Maintained.NamedAlike debug) ⟨.new groupBy aggregates, []⟩
        changes := by
  refine forall_take_iff_along_of_along
    (P := fun s : Maintained => s.view.Recomputed debug s.rows)
    (fun s change (hs : s.Inv debug) => hs.step hdebug) (fun s hs => hs.recomputed hdebug)
    (fun s change hs hvalid hnot hafter =>
      hnot (Maintained.namedAlike_of_recomputed hdebug hs hvalid hafter)) ?_ h
  exact ⟨fun _ => rfl, fun _ hrow => nomatch hrow⟩

theorem sameRow_empty : SameRow .empty .empty := fun _ => rfl

theorem SameRow.put {row other : Row} {v w : PropertyValue} (h : SameRow row other)
    (hvalue : v.eq w = true) (col : String) : SameRow (row.put col v) (other.put col w) := by
  intro col'
  rw [find?_put, find?_put]
  split
  · exact hvalue
  · exact h col'

def reading (hot : Bool) (degrees : PropertyValue) : Row :=
  (empty.put "degrees" degrees).put "hot" (.boolean hot)

/-- The last row of its group is deleted under a zero of the other sign. -/
def fourReadings : List Change :=
  [⟨reading true (.integer 31), .insert, 0⟩, ⟨reading true (.integer 29), .insert, 0⟩,
    ⟨reading true (.integer 30), .update (reading true (.integer 31)), 0⟩,
    ⟨reading true (.integer 29), .delete, 0⟩, ⟨reading false (.float ⟨0⟩), .insert, 0⟩,
    ⟨reading false (.float ⟨1 <<< 63⟩), .delete, 1⟩]

/-- Stands for an arithmetic in which no digit is lost. -/
def wordOps : F64Ops where
  add x y := ⟨x.bits + y.bits⟩
  sub x y := ⟨x.bits - y.bits⟩
  div x y := ⟨x.bits / y.bits⟩
  ofNat n := ⟨n⟩

theorem recomputed_fourReadings :
    (run (Maintained.step strokeDebug wordOps) ⟨.new ["hot"] [.count, .min "degrees"], []⟩
        fourReadings).view.Recomputed strokeDebug
      (run (Maintained.step strokeDebug wordOps) ⟨.new ["hot"] [.count, .min "degrees"], []⟩
        fourReadings).rows := by
  rw [← take_length (l := fourReadings)]
  refine (forall_recomputed_iff_along strokeDebug_documented wordOps ["hot"]
    [.count, .min "degrees"] ?_).mpr ?_ _
  · refine ⟨⟨nofun, by decide⟩, ⟨nofun, by decide⟩, ⟨?_, by decide⟩, ⟨?_, by decide⟩,
      ⟨nofun, by decide⟩, ⟨?_, by decide⟩, trivial⟩
    · rintro _ ⟨⟩
      exact ⟨_, rfl, .inl rfl⟩
    · rintro _ ⟨⟩
      exact ⟨_, rfl, .inl rfl⟩
    · rintro _ ⟨⟩
      exact ⟨_, rfl, .inr ((sameRow_empty.put (by decide) _).put (by decide) _)⟩
  · refine ⟨nofun, nofun, ?_, ?_, nofun, ?_, trivial⟩
    · rintro _ ⟨⟩ _ ⟨⟩
      exact ⟨fun _ _ => rfl, .inl rfl⟩
    · rintro _ ⟨⟩ _ ⟨⟩
      exact ⟨fun _ _ => rfl, .inl rfl⟩
    · rintro _ ⟨⟩ _ ⟨⟩
      refine ⟨by decide, .inr ⟨by decide, nofun⟩⟩

def tagged (tag : PropertyValue) : Row := empty.put "tag" tag

def photo (labels : List (String × String)) : PropertyValue :=
  .blobRef ⟨"photos", "1", 0, 0, "image/png", labels⟩

theorem exists_debug_photo (debug : StdDebug) : ∃ pre post, ∀ labels, (photo labels).debug debug =
    pre ++ (StdDebug.mapText (labels.map debug.labelText) ++ post) := by
  obtain ⟨head, hhead⟩ : ∃ head, ∀ labels,
      debug.blobText ⟨"photos", "1", 0, 0, "image/png", labels⟩ =
        head ++ StdDebug.mapText (labels.map debug.labelText) ++ ' ' :: ['\x7d'] :=
    ⟨_, fun _ => by dsimp only [StdDebug.blobText]⟩
  refine ⟨"BlobRef".toList ++ ['('] ++ head, ' ' :: ['\x7d'] ++ [')'], fun labels => ?_⟩
  show variant "BlobRef" (debug.blobText _) = _
  rw [hhead, variant]
  simp only [append_assoc]

variable {debug : StdDebug} {v w : PropertyValue}

theorem not_recomputed_tagged (hdebug : debug.Documented) (ops : F64Ops) (hvalue : w.eq v = true)
    (hne : w.debug debug ≠ v.debug debug) :
    let changes : List Change := [⟨tagged v, .insert, 0⟩, ⟨tagged w, .delete, 0⟩]
    Along (Maintained.step debug ops) Maintained.Valid ⟨.new ["tag"] [.count], []⟩ changes ∧
      ¬ (run (Maintained.step debug ops) ⟨.new ["tag"] [.count], []⟩
        changes).view.Recomputed debug [] := by
  intro changes
  have hcolumns : ∀ tag, (AggregatedMaterializedView.new ["tag"] [.count]).HasColumns
      (tagged tag) := by
    intro tag col hcol
    rw [mem_singleton.mp hcol, tagged, find?_put, if_pos rfl]
    rfl
  have hvalid : Maintained.Valid
      (Maintained.step debug ops ⟨.new ["tag"] [.count], []⟩ ⟨tagged v, .insert, 0⟩)
      ⟨tagged w, .delete, 0⟩ := by
    refine ⟨?_, hcolumns w⟩
    rintro _ ⟨⟩
    exact ⟨_, rfl, .inr (sameRow_empty.put hvalue _)⟩
  have hinv : (Maintained.mk (.new ["tag"] [.count]) []).Inv debug :=
    ⟨fun _ => rfl, fun _ hrow => nomatch hrow⟩
  have hinsert : Maintained.Valid ⟨.new ["tag"] [.count], []⟩ ⟨tagged v, .insert, 0⟩ :=
    ⟨nofun, hcolumns v⟩
  refine ⟨⟨hinsert, hvalid, trivial⟩, fun hafter => hne ?_⟩
  have halike := Maintained.namedAlike_of_recomputed hdebug (hinv.step hdebug hinsert nofun) hvalid
    hafter
  have hprints := (halike _ rfl _ rfl).1 "tag" (mem_singleton.mpr rfl)
  rw [tagged, tagged, find?_put, find?_put, if_pos rfl, if_pos rfl] at hprints
  exact some.inj hprints

/-- A row is deleted under an equal one, with a zero of the other sign or with a blob whose labels
are listed in another order. Its group stays, whatever the texts of numbers and strings are. -/
theorem not_recomputed_equal_rows :
    strokeDebug.Documented ∧ ∀ (debug : StdDebug) (ops : F64Ops), debug.Documented →
      ∀ tags ∈ [(PropertyValue.float ⟨0⟩, .float ⟨1 <<< 63⟩),
          (photo [("a", ""), ("b", "")], photo [("b", ""), ("a", "")])],
        let changes : List Change := [⟨tagged tags.1, .insert, 0⟩, ⟨tagged tags.2, .delete, 0⟩]
        Along (Maintained.step debug ops) Maintained.Valid ⟨.new ["tag"] [.count], []⟩ changes ∧
          ¬ (run (Maintained.step debug ops) ⟨.new ["tag"] [.count], []⟩
            changes).view.Recomputed debug [] := by
  refine ⟨strokeDebug_documented, fun debug ops hdebug => ?_⟩
  rw [forall_mem_cons, forall_mem_singleton]
  constructor
  · refine not_recomputed_tagged hdebug ops (by decide) fun heq => ?_
    have hfloat : debug.float ⟨1 <<< 63⟩ = debug.float ⟨0⟩ := by
      simpa [PropertyValue.debug, variant] using heq
    have hzero := (hdebug.float ⟨1 <<< 63⟩ ⟨0⟩).of_eq hfloat (by decide)
    exact absurd (congrArg F64.bits hzero) (by decide)
  · have hvalue : (photo [("b", ""), ("a", "")]).eq (photo [("a", ""), ("b", "")]) = true := by
      simp [photo, PropertyValue.eq, BlobRef.eq, isPerm_iff, Perm.swap]
    refine not_recomputed_tagged hdebug ops hvalue fun heq => ?_
    obtain ⟨pre, post, htext⟩ := exists_debug_photo debug
    rw [htext, htext] at heq
    have hlabels := append_cancel_left heq
    simp only [StdDebug.mapText, map_cons, listedTo, StdDebug.labelText, append_assoc, cons_append,
      cons.injEq, true_and] at hlabels
    have hcolon : ∀ s, AtStop StdDebug.stops (':' :: s) := fun s =>
      atStop_cons.mpr (by simp [StdDebug.stops])
    exact absurd (hdebug.str _ _ _ _ (hcolon _) (hcolon _) hlabels).1 (by decide)

end Nexora.View
