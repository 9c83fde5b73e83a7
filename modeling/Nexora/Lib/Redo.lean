import Nexora.Lib.Fold

/-!
# Applying a log again from a saved place

A log is folded into a state whose place in the log is saved less often than the state. `Resumes`
says what such a state promises: going on from the place `k` leads, for every place from `m` on, to
the state the log has there. Entries that absorb their own earlier occurrence keep the promise.
-/

namespace Lib
open List
variable {σ α : Type*}

/-! ### Slices -/

/-- The entries of a log from one place up to another. -/
def slice (log : List α) (k n : Nat) : List α := (log.take n).drop k

theorem slice_self (log : List α) (k : Nat) : slice log k k = [] := by
  rw [slice, drop_eq_nil_iff, length_take]
  omega

variable {log : List α} {j : Nat}

theorem slice_append {k n : Nat} (hkj : k ≤ j) (hjn : j ≤ n) :
    slice log k n = slice log k j ++ slice log j n := by
  have htake : log.take n = log.take j ++ slice log j n := by
    have hsplit := (take_append_drop j (log.take n)).symm
    rwa [take_take, Nat.min_eq_left hjn] at hsplit
  by_cases hlen : k ≤ log.length
  · rw [slice, htake, drop_append_of_le_length (by rw [length_take]; omega)]
    rfl
  · have hnil : ∀ i l, log.length < i → slice log i l = [] := by
      intro i l hi
      rw [slice, drop_eq_nil_iff, length_take]
      omega
    simp [hnil k n (by omega), hnil k j (by omega), hnil j n (by omega)]

theorem slice_cons {n : Nat} {a : α} (hj : log[j]? = some a) (hjn : j < n) :
    slice log j n = a :: slice log (j + 1) n := by
  have hn : (log.take n)[j]? = some a := by rw [getElem?_take_of_lt hjn, hj]
  obtain ⟨hlt, hget⟩ := List.getElem?_eq_some_iff.mp hn
  rw [slice, drop_eq_getElem_cons hlt, hget, slice]

theorem slice_succ {k : Nat} {a : α} (hj : log[j]? = some a) (hkj : k ≤ j) :
    slice log k (j + 1) = slice log k j ++ [a] := by
  rw [slice_append hkj (Nat.le_succ j), slice_cons hj (Nat.lt_succ_self j), slice_self]

/-! ### Resuming -/

/-- Going on from the place `k` leads, for every place from `m` on, to the state the log has
there. -/
def Resumes (f : σ → α → σ) (start : σ) (log : List α) (s : σ) (k m : Nat) : Prop :=
  ∀ n, m ≤ n → n ≤ log.length → (slice log k n).foldl f s = (log.take n).foldl f start

variable {f : σ → α → σ} {start s : σ} {log : List α} {k m : Nat}

theorem resumes_start : Resumes f start log start 0 0 := fun _ _ _ => rfl

theorem Resumes.eq (h : Resumes f start log s log.length m) (hm : m ≤ log.length) :
    s = log.foldl f start := by
  have hend := h log.length hm (Nat.le_refl _)
  rwa [slice_self, take_length] at hend

theorem Resumes.next (h : Resumes f start log s k m) {a : α} (hk : log[k]? = some a) :
    Resumes f start log (f s a) (k + 1) (max m (k + 1)) := by
  intro n hn hlen
  have hrest := h n (by omega) hlen
  rwa [slice_cons hk (by omega)] at hrest

/-- **Entries that absorb themselves** may be folded in while the saved place stays behind. -/
theorem Resumes.again {P : α → Prop} (h : Resumes f start log s k m) (habs : Absorbs f P) {j : Nat}
    {a : α} (hj : log[j]? = some a) (hkj : k ≤ j) (hP : ∀ b ∈ slice log k (j + 1), P b) :
    Resumes f start log (f s a) k (max m (j + 1)) := by
  rw [slice_succ hj hkj] at hP
  have ha : P a := hP a (mem_append_right _ mem_cons_self)
  have hbefore : ∀ b ∈ slice log k j, P b := fun b hb => hP b (mem_append_left _ hb)
  intro n hn hlen
  have hsplit : slice log k n = slice log k j ++ a :: slice log (j + 1) n := by
    rw [slice_append hkj (by omega : j ≤ n), slice_cons hj (by omega)]
  have hrest := h n (by omega) hlen
  rw [hsplit, foldl_append, foldl_cons] at hrest ⊢
  rw [habs.foldl_one ha hbefore s]
  exact hrest

end Lib
