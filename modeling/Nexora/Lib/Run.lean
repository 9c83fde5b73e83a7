import Mathlib.Data.List.Basic

/-!
# Runs of a state machine

A machine is a step function; its nondeterminism is in the labels. `Along` says that a condition
holds of every state and label of a run. `run_invariant` is the induction over runs, and
`forall_take_iff_along` the one for results that say exactly when a property holds all along.
-/

namespace Lib
variable {σ ℓ : Type} (step : σ → ℓ → σ)

def run (s : σ) (labels : List ℓ) : σ := labels.foldl step s

@[simp] theorem run_nil (s : σ) : run step s [] = s := rfl

@[simp] theorem run_cons (s : σ) (label : ℓ) (labels : List ℓ) :
    run step s (label :: labels) = run step (step s label) labels := rfl

theorem run_append (s : σ) (labels more : List ℓ) :
    run step s (labels ++ more) = run step (run step s labels) more :=
  List.foldl_append

/-- The condition holds before every step of the run. -/
def Along (cond : σ → ℓ → Prop) : σ → List ℓ → Prop
  | _, [] => True
  | s, label :: labels => cond s label ∧ Along cond (step s label) labels

variable {step} {cond : σ → ℓ → Prop}

theorem along_append {s : σ} {labels more : List ℓ} :
    Along step cond s (labels ++ more) ↔ Along step cond s labels ∧ Along step cond (run step s labels) more := by
  induction labels generalizing s with
  | nil => exact (and_iff_right trivial).symm
  | cons label labels ih => simp [List.cons_append, Along, ih, run_cons, and_assoc]

theorem along_mono {cond' : σ → ℓ → Prop} (hcond : ∀ s label, cond s label → cond' s label) {s : σ}
    {labels : List ℓ} (h : Along step cond s labels) : Along step cond' s labels := by
  induction labels generalizing s with
  | nil => trivial
  | cons label labels ih => exact ⟨hcond s label h.1, ih h.2⟩

/-- What a step that meets the condition preserves, a run whose steps all meet it preserves. -/
theorem run_invariant {Inv : σ → Prop}
    (hstep : ∀ s label, Inv s → cond s label → Inv (step s label)) {s : σ} (hs : Inv s)
    {labels : List ℓ} (h : Along step cond s labels) : Inv (run step s labels) := by
  induction labels generalizing s with
  | nil => exact hs
  | cons label labels ih => exact ih (hstep s label hs h.1) h.2

theorem along_invariant {Inv : σ → Prop} {cond' : σ → ℓ → Prop}
    (hstep : ∀ s label, Inv s → cond s label → cond' s label ∧ Inv (step s label)) {s : σ}
    (hs : Inv s) {labels : List ℓ} (h : Along step cond s labels) : Along step cond' s labels := by
  induction labels generalizing s with
  | nil => trivial
  | cons label labels ih => exact ⟨(hstep s label hs h.1).1, ih (hstep s label hs h.1).2 h.2⟩

theorem along_true (s : σ) (labels : List ℓ) : Along step (fun _ _ => True) s labels := by
  induction labels generalizing s with
  | nil => trivial
  | cons label labels ih => exact ⟨trivial, ih _⟩

/-- What every step preserves, every run preserves. -/
theorem run_preserves {Inv : σ → Prop} (hstep : ∀ s label, Inv s → Inv (step s label)) {s : σ}
    (hs : Inv s) (labels : List ℓ) : Inv (run step s labels) :=
  run_invariant (fun s label hinv _ => hstep s label hinv) hs (along_true s labels)

/-- A counter that no step raises by more than one stays within the number of steps. -/
theorem run_le_add_length (counter : σ → Nat)
    (hstep : ∀ s label, counter (step s label) ≤ counter s + 1) (s : σ) (labels : List ℓ) :
    counter (run step s labels) ≤ counter s + labels.length := by
  induction labels generalizing s with
  | nil => exact Nat.le_refl _
  | cons label labels ih =>
    have hfirst := hstep s label
    have hrest := ih (step s label)
    rw [run_cons, List.length_cons]
    omega

theorem run_iff_exists {P : σ → Prop} {hit : ℓ → Prop}
    (hstep : ∀ s label, cond s label → (P (step s label) ↔ hit label ∨ P s)) {s : σ}
    {labels : List ℓ} (h : Along step cond s labels) :
    P (run step s labels) ↔ (∃ label ∈ labels, hit label) ∨ P s := by
  induction labels generalizing s with
  | nil => simp
  | cons label labels ih =>
    rw [run_cons, ih h.2, hstep s label h.1, List.exists_mem_cons_iff, or_left_comm, or_assoc]

theorem forall_take_iff_along_of_along {considered : σ → ℓ → Prop} {Inv P : σ → Prop}
    (hstep : ∀ s label, Inv s → considered s label → cond s label → Inv (step s label))
    (hP : ∀ s, Inv s → P s)
    (hbreak : ∀ s label, Inv s → considered s label → ¬ cond s label → ¬ P (step s label)) {s : σ}
    (hs : Inv s) {labels : List ℓ} (h : Along step considered s labels) :
    (∀ k, P (run step s (labels.take k))) ↔ Along step cond s labels := by
  induction labels generalizing s with
  | nil => exact iff_of_true (fun k => by simpa using hP s hs) trivial
  | cons label labels ih =>
    constructor
    · intro hall
      have hcond : cond s label := by
        by_contra hnot
        exact hbreak s label hs h.1 hnot (hall 1)
      exact ⟨hcond, (ih (hstep s label hs h.1 hcond) h.2).mp fun k => hall (k + 1)⟩
    · intro halong k
      cases k with
      | zero => exact hP s hs
      | succ k => exact (ih (hstep s label hs h.1 halong.1) h.2).mpr halong.2 k

/-- A property that the invariant implies and that every step against the condition breaks holds all
along a run exactly when all its steps meet the condition. -/
theorem forall_take_iff_along {Inv P : σ → Prop}
    (hstep : ∀ s label, Inv s → cond s label → Inv (step s label)) (hP : ∀ s, Inv s → P s)
    (hbreak : ∀ s label, Inv s → ¬ cond s label → ¬ P (step s label)) {s : σ} (hs : Inv s)
    (labels : List ℓ) : (∀ k, P (run step s (labels.take k))) ↔ Along step cond s labels :=
  forall_take_iff_along_of_along (fun s label hinv _ => hstep s label hinv) hP
    (fun s label hinv _ => hbreak s label hinv) hs
    (along_true s labels)

theorem forall_take_le_iff_along {Inv : σ → Prop} {R : σ → σ → Prop} (hrefl : ∀ s, R s s)
    (htrans : ∀ r s t, R r s → R s t → R r t) (hinv : ∀ s label, Inv s → Inv (step s label))
    (hstep : ∀ s label, Inv s → (R s (step s label) ↔ cond s label)) {s : σ} (hs : Inv s)
    (labels : List ℓ) :
    (∀ i j, i ≤ j → R (run step s (labels.take i)) (run step s (labels.take j))) ↔
    Along step cond s labels := by
  induction labels generalizing s with
  | nil => exact iff_of_true (fun i j _ => by simpa using hrefl s) trivial
  | cons label labels ih =>
    have hrest := ih (hinv s label hs)
    constructor
    · intro hall
      exact ⟨(hstep s label hs).mp (hall 0 1 (Nat.zero_le 1)),
        hrest.mp fun i j hij => hall (i + 1) (j + 1) (Nat.succ_le_succ hij)⟩
    · rintro ⟨hcond, halong⟩ i j hij
      have hfirst : R s (step s label) := (hstep s label hs).mpr hcond
      cases i with
      | zero =>
        cases j with
        | zero => exact hrefl s
        | succ j => exact htrans _ _ _ hfirst (hrest.mpr halong 0 j (Nat.zero_le j))
      | succ i =>
        cases j with
        | zero => exact absurd hij (Nat.not_succ_le_zero i)
        | succ j => exact hrest.mpr halong i j (Nat.le_of_succ_le_succ hij)

end Lib
