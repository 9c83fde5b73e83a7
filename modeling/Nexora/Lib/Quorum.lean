import Mathlib.Data.List.Sort

/-!
# What a quorum has reached

Each member of a group reports a number. The greatest number that at least `q` of them have reached
is the `q`-th largest of the reports.
-/

namespace Lib
open List
variable {A : Type*} [LinearOrder A]

def nthLargest (q : Nat) (l : List A) : Option A :=
  let sorted := l.insertionSort (· ≤ ·)
  if q ≤ sorted.length then sorted[sorted.length - q]? else none

theorem le_countP_nthLargest {q : Nat} {l : List A} {a : A} (h : nthLargest q l = some a) :
    q ≤ l.countP fun b => a ≤ b := by
  unfold nthLargest at h
  simp only at h
  split at h
  · next hq =>
    set sorted := l.insertionSort (· ≤ ·) with hsorted
    have hpairwise : sorted.Pairwise (· ≤ ·) := pairwise_insertionSort _ l
    obtain ⟨hlt, ha⟩ := List.getElem?_eq_some_iff.mp h
    have hdrop := List.drop_eq_getElem_cons hlt
    rw [ha] at hdrop
    have hall : ∀ b ∈ sorted.drop (sorted.length - q), decide (a ≤ b) = true := by
      intro b hb
      rw [hdrop, mem_cons] at hb
      have htail := hdrop ▸ hpairwise.sublist (drop_sublist (sorted.length - q) sorted)
      rcases hb with rfl | hb
      · exact decide_eq_true le_rfl
      · exact decide_eq_true (rel_of_pairwise_cons htail hb)
    calc q = (sorted.drop (sorted.length - q)).length := by rw [length_drop]; omega
      _ = (sorted.drop (sorted.length - q)).countP fun b => a ≤ b := (countP_eq_length.mpr hall).symm
      _ ≤ sorted.countP fun b => a ≤ b := (drop_sublist _ _).countP_le
      _ = l.countP fun b => a ≤ b := (perm_insertionSort _ l).countP_eq _
  · exact absurd h (by simp)

/-- **Two majorities** have a member in common. -/
theorem exists_mem_of_majorities {B : Type*} {l : List B} {p q : B → Bool}
    (hp : l.length < 2 * l.countP p) (hq : l.length < 2 * l.countP q) :
    ∃ b ∈ l, p b = true ∧ q b = true := by
  by_contra hnot
  push Not at hnot
  have hle : l.countP q ≤ l.countP fun b => ¬ p b = true :=
    countP_mono_left fun b hb hqb => decide_eq_true fun hpb => hnot b hb hpb hqb
  have hlength := @List.length_eq_countP_add_countP _ p l
  omega

end Lib
