import Nexora.Lib.Run
import Mathlib.Order.Basic

/-!
# Watermarks of one stream

The watermark is the latest event time less the allowed lateness (`watermark.rs`). Before the first
event the latest time is the smallest integer, from which no lateness can be taken without an
overflow.
-/

namespace Nexora.Stream
open Lib Int64

structure WatermarkGenerator where
  lastEventTime : Int64
  maxOutOfOrderness : Int64

namespace WatermarkGenerator

def new (maxOutOfOrderness : Int64) : WatermarkGenerator := ⟨Int64.minValue, maxOutOfOrderness⟩

/-- The subtraction wraps. -/
def currentWatermark (g : WatermarkGenerator) : Int64 := g.lastEventTime - g.maxOutOfOrderness

def onEvent (g : WatermarkGenerator) (eventTime : Int64) : WatermarkGenerator :=
  if eventTime > g.lastEventTime then { g with lastEventTime := eventTime } else g

def isWindowReady (g : WatermarkGenerator) (windowEnd : Int64) : Bool :=
  g.currentWatermark ≥ windowEnd

theorem maxOutOfOrderness_run (g : WatermarkGenerator) (times : List Int64) :
    (run onEvent g times).maxOutOfOrderness = g.maxOutOfOrderness := by
  have hstep (s : WatermarkGenerator) (time : Int64) (h : s.maxOutOfOrderness = g.maxOutOfOrderness) :
      (s.onEvent time).maxOutOfOrderness = g.maxOutOfOrderness := by
    unfold onEvent
    split <;> exact h
  exact run_preserves hstep rfl times

theorem le_lastEventTime_onEvent (x : Int) (g : WatermarkGenerator) (time : Int64) :
    x ≤ (g.onEvent time).lastEventTime.toInt ↔ x ≤ time.toInt ∨ x ≤ g.lastEventTime.toInt := by
  unfold onEvent
  split
  · next h =>
    have := lt_iff_toInt_lt.mp h
    constructor <;> dsimp only <;> omega
  · next h =>
    have := mt lt_iff_toInt_lt.mpr h
    omega

/-- The latest time reaches a bound if an event does, or if it did before the run. -/
theorem le_lastEventTime_run (x : Int) (g : WatermarkGenerator) (times : List Int64) :
    x ≤ (run onEvent g times).lastEventTime.toInt ↔ (∃ time ∈ times, x ≤ time.toInt) ∨ x ≤ g.lastEventTime.toInt :=
  run_iff_exists (P := fun g => x ≤ g.lastEventTime.toInt) (fun g time _ => le_lastEventTime_onEvent x g time) (along_true g times)

theorem toInt_currentWatermark {g : WatermarkGenerator} (hlate : 0 ≤ g.maxOutOfOrderness.toInt)
    (hroom : Int64.minValue.toInt + g.maxOutOfOrderness.toInt ≤ g.lastEventTime.toInt) :
    g.currentWatermark.toInt = g.lastEventTime.toInt - g.maxOutOfOrderness.toInt := by
  have hmin : minValue.toInt = -2 ^ 63 := rfl
  have hlt := toInt_lt g.lastEventTime
  rw [currentWatermark, toInt_sub]
  exact Int.bmod_eq_of_le (by omega) (by omega)

/-- Windows are ready exactly when an event has passed them by the lateness, no subtraction
overflows and no later event lowers the watermark, if and only if some event is at least the
lateness above the smallest integer. Before such an event every window counts as ready, or the
smallest one does. -/
theorem isWindowReady_iff_exists_event {lateness : Int64} (hlate : 0 ≤ lateness.toInt)
    (times : List Int64) :
    (∃ time ∈ times, Int64.minValue.toInt + lateness.toInt ≤ time.toInt) ↔
      (∀ windowEnd, (run onEvent (new lateness) times).isWindowReady windowEnd = true ↔
        ∃ time ∈ times, windowEnd.toInt + lateness.toInt ≤ time.toInt) ∧
      ∀ more, (run onEvent (new lateness) (times ++ more)).currentWatermark.toInt =
          (run onEvent (new lateness) (times ++ more)).lastEventTime.toInt - lateness.toInt ∧
        (run onEvent (new lateness) times).currentWatermark.toInt ≤
          (run onEvent (new lateness) (times ++ more)).currentWatermark.toInt := by
  have hmax := maxOutOfOrderness_run (new lateness)
  constructor
  · rintro ⟨time, hmem, htime⟩
    have hexact (later : List Int64) : (run onEvent (new lateness) (times ++ later)).currentWatermark.toInt =
        (run onEvent (new lateness) (times ++ later)).lastEventTime.toInt - lateness.toInt := by
      have h := toInt_currentWatermark (g := run onEvent (new lateness) (times ++ later))
      rw [hmax] at h
      exact h hlate ((le_lastEventTime_run ..).mpr (.inl ⟨time, List.mem_append_left later hmem, htime⟩))
    have hnow := hexact []
    rw [List.append_nil] at hnow
    refine ⟨fun windowEnd => ?_, fun more => ⟨hexact more, ?_⟩⟩
    · have hwindow := le_toInt windowEnd
      rw [isWindowReady, decide_eq_true_iff, ge_iff_le, le_iff_toInt_le, hnow, ← Int.add_le_iff_le_sub, le_lastEventTime_run]
      refine or_iff_left_of_imp fun hle => ⟨time, hmem, ?_⟩
      change _ ≤ minValue.toInt at hle
      omega
    · rw [hnow, hexact more, run_append]
      have := (le_lastEventTime_run _ (run onEvent (new lateness) times) more).mpr (.inr (Int.le_refl _))
      omega
  · rintro ⟨hready, -⟩
    refine (hready minValue).mp ?_
    rw [isWindowReady, decide_eq_true_iff]
    exact minValue_le _

theorem isWindowReady_iff_exists_event_one :
    (run onEvent (new 500) [1500]).isWindowReady 1000 = true :=
  (((@isWindowReady_iff_exists_event 500 (by decide) [1500]).mp ⟨1500, by decide, by decide⟩).1 1000).mpr
    ⟨1500, by decide, by decide⟩

/-- Without an event every window is ready, and the first event lowers the watermark. -/
theorem isWindowReady_without_event : (new 1).isWindowReady Int64.maxValue = true ∧
    (run onEvent (new 1) [0]).currentWatermark < (new 1).currentWatermark := by decide

end WatermarkGenerator
end Nexora.Stream
