import Mathlib.Data.Int.CardIntervalMod
import Mathlib.Data.List.Destutter
import Mathlib.Data.List.Sort

/-!
# Taking turns

A list is put in order and rid of its repetitions, and its members take turns. Fewer consecutive
turns than there are members fall to different ones, and of the turns below a number each member has
as many as any other, up to one.
-/

namespace Lib
open List

/-! ### The members of a list in order -/

section Sorted
variable {α : Type*} [LinearOrder α]

/-- Sort, and remove what stands behind its like. -/
def sortedDistinct (l : List α) : List α := (l.insertionSort (· ≤ ·)).destutter (· ≠ ·)

theorem mem_destutter'_ne {a b : α} {l : List α} : a ∈ l.destutter' (· ≠ ·) b ↔ a = b ∨ a ∈ l := by
  induction l generalizing b with
  | nil => rw [destutter'_nil, mem_singleton, or_iff_left not_mem_nil]
  | cons c l ih =>
    by_cases hbc : b = c
    · simp [ih, hbc]
    · rw [destutter'_cons_pos _ hbc, mem_cons, ih, mem_cons]

theorem mem_sortedDistinct {a : α} {l : List α} : a ∈ sortedDistinct l ↔ a ∈ l := by
  rw [sortedDistinct, ← mem_insertionSort (r := (· ≤ ·)) (l := l)]
  cases l.insertionSort (· ≤ ·) with
  | nil => rw [destutter_nil]
  | cons b rest => rw [destutter_cons', mem_destutter'_ne, mem_cons]

theorem sorted_sortedDistinct (l : List α) : (sortedDistinct l).Pairwise (· < ·) := by
  have hle : (sortedDistinct l).Pairwise (· ≤ ·) :=
    (pairwise_insertionSort (· ≤ ·) l).sublist (destutter_sublist _ _)
  have hne : (sortedDistinct l).IsChain (· ≠ ·) := isChain_destutter _ _
  refine isChain_iff_pairwise.mp (isChain_iff_getElem.mpr fun i hi => ?_)
  exact lt_of_le_of_ne (isChain_iff_getElem.mp hle.isChain i hi) (isChain_iff_getElem.mp hne i hi)

theorem nodup_sortedDistinct (l : List α) : (sortedDistinct l).Nodup :=
  (sorted_sortedDistinct l).imp ne_of_lt

theorem sortedDistinct_eq_of_mem_iff {l more : List α} (h : ∀ a, a ∈ l ↔ a ∈ more) :
    sortedDistinct l = sortedDistinct more := by
  refine (sorted_sortedDistinct l).eq_of_mem_iff (sorted_sortedDistinct more) fun a => ?_
  simp [mem_sortedDistinct, h]

theorem length_sortedDistinct (l : List α) : (sortedDistinct l).length = l.toFinset.card := by
  rw [← toFinset_card_of_nodup (nodup_sortedDistinct l)]
  congr 1
  ext a
  simp [mem_sortedDistinct]

end Sorted

/-! ### Turns -/

/-- Those who take turns, in their order. -/
structure RoundRobin (α : Type*) where
  members : List α
  nodup : members.Nodup
  nonempty : members ≠ []

namespace RoundRobin
variable {α : Type*} (r : RoundRobin α)

def size : Nat := r.members.length

theorem size_pos : 0 < r.size := length_pos_of_ne_nil r.nonempty

def turn (i : Nat) : α := r.members.get ⟨i % r.size, Nat.mod_lt _ r.size_pos⟩

theorem turn_mem (i : Nat) : r.turn i ∈ r.members := get_mem _ _

variable {r}

theorem turn_eq_iff {i j : Nat} : r.turn i = r.turn j ↔ i ≡ j [MOD r.size] :=
  r.nodup.get_inj_iff.trans Fin.mk_eq_mk

theorem exists_turn {a : α} (h : a ∈ r.members) : ∃ v < r.size, r.turn v = a := by
  obtain ⟨v, hv, rfl⟩ := mem_iff_getElem.mp h
  refine ⟨v, hv, ?_⟩
  simp only [turn, get_eq_getElem, Nat.mod_eq_of_lt (show v < r.size from hv)]

theorem turn_add_inj {start i j : Nat} (hi : i < r.size) (hj : j < r.size)
    (h : r.turn (start + i) = r.turn (start + j)) :
    i = j :=
  (Nat.ModEq.add_left_cancel' start (turn_eq_iff.mp h)).eq_of_lt_of_lt hi hj

variable (r)

/-- The members whose turns follow a number. -/
def following (start count : Nat) : List α :=
  (List.range' 1 count).map fun offset => r.turn (start + offset)

theorem length_following (start count : Nat) : (r.following start count).length = count := by
  simp [following]

variable {r}

theorem turn_notMem_following {start count : Nat} (hcount : count < r.size) :
    r.turn start ∉ r.following start count := by
  intro hmem
  obtain ⟨offset, hoffset, hturn⟩ := mem_map.mp hmem
  have hrange := mem_range'_1.mp hoffset
  have hzero : offset = 0 := turn_add_inj (by omega) r.size_pos hturn
  omega

theorem nodup_following {start count : Nat} (hcount : count < r.size) :
    (r.following start count).Nodup := by
  refine (nodup_map_iff_inj_on nodup_range').mpr fun i hi j hj hturn => ?_
  have hi' := mem_range'_1.mp hi
  have hj' := mem_range'_1.mp hj
  exact turn_add_inj (by omega) (by omega) hturn

variable [DecidableEq α]

theorem countP_turn {total v : Nat} (hv : v < r.size) :
    ((List.range total).countP fun i => r.turn i = r.turn v) = total / r.size + if v < total % r.size then 1 else 0 := by
  have hcount := Nat.count_modEq_card total r.size_pos v
  rw [Nat.mod_eq_of_lt hv, Nat.count] at hcount
  rw [← hcount]
  exact countP_congr fun i _ => by rw [decide_eq_true_eq, decide_eq_true_eq, turn_eq_iff]

theorem countP_turn_le {a b : α} (ha : a ∈ r.members) (hb : b ∈ r.members) (total : Nat) :
    ((List.range total).countP fun i => r.turn i = a) ≤ ((List.range total).countP fun i => r.turn i = b) + 1 := by
  obtain ⟨v, hv, rfl⟩ := exists_turn ha
  obtain ⟨w, hw, rfl⟩ := exists_turn hb
  rw [countP_turn hv, countP_turn hw]
  split <;> split <;> omega

end RoundRobin
end Lib
