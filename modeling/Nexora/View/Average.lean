import Nexora.View.Aggregation

/-!
# Groups and averages

The key of a group passes over the columns that a row does not have. The average divides the sum of
the values by the number of rows, with and without a value, and the sum is kept in doubles: taking a
value out need not give the sum of the others.
-/

namespace Nexora.View
open Lib List Option AggregatedMaterializedView AggregationState

/-! ### Keys -/

namespace AggregatedMaterializedView
variable {debug : StdDebug} {view : AggregatedMaterializedView} {row other : Row}

/-- The rows agree in every column of the groups, one that is missing only with a missing one. -/
def Agrees (view : AggregatedMaterializedView) (row other : Row) : Prop :=
  ∀ col ∈ view.groupBy, sameValue (row.find? col) (other.find? col) = true

instance instDecidableAgrees (view : AggregatedMaterializedView) (row other : Row) :
    Decidable (view.Agrees row other) :=
  inferInstanceAs (Decidable (∀ col ∈ view.groupBy,
    sameValue (row.find? col) (other.find? col) = true))

def SameColumns (view : AggregatedMaterializedView) (row other : Row) : Prop :=
  ∀ col ∈ view.groupBy, (row.find? col).isSome = (other.find? col).isSome

instance instDecidableSameColumns (view : AggregatedMaterializedView) (row other : Row) :
    Decidable (view.SameColumns row other) :=
  inferInstanceAs (Decidable (∀ col ∈ view.groupBy,
    (row.find? col).isSome = (other.find? col).isSome))

/-- Values that print alike are equal, but for one that is not equal to itself. -/
theorem PrintsAs.agrees (hdebug : debug.Documented) (h : view.PrintsAs debug row other)
    (hself : view.Agrees other other) : view.Agrees row other := by
  intro col hcol
  have htext := h col hcol
  have hvalue := hself col hcol
  cases hrow : row.find? col with
  | none =>
    rw [hrow, map_none, eq_comm, map_eq_none_iff] at htext
    rw [htext]
    rfl
  | some v =>
    rw [hrow, map_some, eq_comm, map_eq_some_iff] at htext
    obtain ⟨w, hother, heq⟩ := htext
    rw [hother] at hvalue ⊢
    exact (v.debug_reads hdebug w).of_eq heq.symm hvalue

end AggregatedMaterializedView

/-! ### Sums -/

section Sums
variable (ops : F64Ops)

/-- The values of a group, added in the order in which they have come. -/
def total (metrics : List (Option F64)) : F64 := (metrics.filterMap id).foldl ops.add ⟨0⟩

/-- The value is taken out of the sum exactly. -/
def TakesOut (value : Option F64) (before after : List (Option F64)) : Prop :=
  ∀ x ∈ value, ops.sub (total ops before) x = total ops after

def SumHolds (group : Option AggregationState) (metrics : List (Option F64)) : Prop :=
  ∀ state ∈ group, state.sum = total ops metrics

variable {ops} {group group' : Option AggregationState} {metrics metrics' : List (Option F64)}

theorem total_append (metrics : List (Option F64)) (value : Option F64) :
    total ops (metrics ++ [value]) =
      value.elim (total ops metrics) (ops.add (total ops metrics)) := by
  rw [total, filterMap_append, foldl_append]
  cases value <;> rfl

theorem SumHolds.getD (h : SumHolds ops group metrics) (hgroup : GroupHolds group metrics) :
    (group.getD .new).sum = total ops metrics := by
  cases group with
  | none =>
    have hnil : metrics = [] := hgroup
    rw [hnil]
    rfl
  | some state => exact h state rfl

theorem sum_removeRow {state : AggregationState} {pre post : List (Option F64)}
    {value : Option F64} (hcount : state.count ≠ 0)
    (hsum : state.sum = total ops (pre ++ value :: post))
    (htakes : TakesOut ops value (pre ++ value :: post) (pre ++ post)) :
    (state.removeRow ops value).sum = total ops (pre ++ post) := by
  rw [removeRow, if_neg hcount]
  cases value with
  | none =>
    show state.sum = _
    rw [hsum, total, filterMap_append, filterMap_cons_none rfl, ← filterMap_append, total]
  | some x =>
    show ops.sub state.sum x = _
    rw [hsum, htakes x rfl]

theorem SumHolds.step (h : SumHolds ops group metrics) (hgroup : GroupHolds group metrics)
    (hstep : GroupStep ops (TakesOut ops) group metrics group' metrics') :
    SumHolds ops group' metrics' := by
  cases hstep with
  | keep => exact h
  | join _ value =>
    rintro _ ⟨⟩
    rw [total_append, ← h.getD hgroup]
    rfl
  | leave htakes =>
    intro state' hstate'
    obtain ⟨state, hstate, hleft⟩ := bind_eq_some_iff.mp hstate'
    have hcount : state.count ≠ 0 := by
      rw [hstate] at hgroup
      rw [hgroup.2.count]
      simp
    split at hleft
    · cases hleft
    · cases hleft
      exact sum_removeRow hcount (h state hstate) htakes
  | close value metric =>
    rw [hgroup.leaveState_singleton]
    exact nofun
  | adjust new htakes =>
    have hcounts := hgroup.counts_getD
    have hcount : (group.getD .new).count ≠ 0 := by
      rw [hcounts.count]
      simp
    rintro _ ⟨⟩
    rw [adjustMetric_eq hcount, total_append,
      ← sum_removeRow hcount (h.getD hgroup) htakes]
    rfl

end Sums

/-! ### Histories -/

namespace Maintained
variable (debug : StdDebug) (ops : F64Ops)

/-- The metric value of the row that leaves is taken out of the sum of its group exactly, unless the
group ends. -/
def Exact (s : Maintained) (change : Change) : Prop :=
  ∀ named ∈ change.named, ∀ present, s.rows[change.place]? = some present →
    TakesOut ops (s.view.metric named) (s.view.groupMetrics debug s.rows present)
        (s.view.groupMetrics debug (s.rows.eraseIdx change.place) present) ∨
      s.EndsGroup debug change present

structure ExactStep (s : Maintained) (change : Change) : Prop where
  valid : s.Valid change
  alike : s.NamedAlike debug change
  exact : s.Exact debug ops change

structure Summed (s : Maintained) : Prop where
  inv : s.Inv debug
  sum : ∀ groupKey,
    SumHolds ops (s.view.groupState groupKey) (s.view.metricsOf debug s.rows groupKey)

variable {debug ops} {s : Maintained} {change : Change}

theorem Summed.step (hdebug : debug.Documented) (h : s.Summed debug ops)
    (hstep : s.ExactStep debug ops change) : (s.step debug ops change).Summed debug ops where
  inv := h.inv.step hdebug hstep.valid hstep.alike
  sum groupKey := (h.sum groupKey).step (h.inv.kept groupKey)
    (h.inv.groupStep ops (TakesOut ops) hdebug hstep.valid hstep.alike hstep.exact groupKey)

theorem Summed.avg (hdebug : debug.Documented) (h : s.Summed debug ops) {row : Row}
    (hrow : row ∈ s.rows) :
    ((s.view.groupState (s.view.computeGroupKey debug row)).bind (·.avg ops)) =
      some (ops.div (total ops (s.view.groupMetrics debug s.rows row))
        (ops.ofNat (s.view.groupMetrics debug s.rows row).length)) := by
  obtain ⟨state, hstate, hsummarizes⟩ := (h.inv.recomputed hdebug).summarizes row hrow
  have hsum := h.sum _ state hstate
  rw [metricsOf_eq_groupMetrics hdebug h.inv.columns
    (h.inv.columns row hrow)] at hsum
  have hpos : state.count > 0 := by
    rw [hsummarizes.count, groupMetrics, length_map]
    exact length_pos_of_mem (mem_filter.mpr ⟨hrow, decide_eq_true fun _ _ => rfl⟩)
  rw [hstate, bind_some, AggregationState.avg, if_pos hpos, hsum, hsummarizes.count]

end Maintained

end Nexora.View
