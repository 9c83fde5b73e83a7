import Nexora.Lib.Table

/-!
# Counting occurrences in key order

A multiset is kept as a table of its elements with the number of times each occurs. An element that
no longer occurs has no row, so that the first and the last key of the table are the least and the
greatest element.
-/

namespace Lib
open List Option Table
variable {K : Type*} [LinearOrder K]

structure Tally (K : Type*) [LinearOrder K] where
  table : Table K Nat
  pos : ∀ row ∈ table.rows, 0 < row.2

namespace Tally

def empty : Tally K := ⟨.empty, fun _ hrow => absurd hrow List.not_mem_nil⟩

def count (t : Tally K) (k : K) : Nat := (t.table.find? k).getD 0

def add (t : Tally K) (k : K) : Tally K where
  table := t.table.put k (t.count k + 1)
  pos := fun row hrow => (mem_of_mem_putRow hrow).elim (fun heq => heq ▸ Nat.succ_pos _) (t.pos row)

/-- One occurrence less; the last one takes the row with it. -/
def remove (t : Tally K) (k : K) : Tally K :=
  if h : t.count k ≤ 1 then ⟨t.table.erase k, fun row hrow => t.pos row (List.mem_filter.mp hrow).1⟩
  else
    { table := t.table.put k (t.count k - 1)
      pos := fun row hrow => (mem_of_mem_putRow hrow).elim (fun heq => heq ▸ Nat.sub_pos_of_lt (not_le.mp h)) (t.pos row) }

def first? (t : Tally K) : Option K := t.table.rows.head?.map Prod.fst

def last? (t : Tally K) : Option K := t.table.rows.getLast?.map Prod.fst

variable {t : Tally K} {k k' : K}

theorem count_pos_iff : 0 < t.count k ↔ ∃ n, (k, n) ∈ t.table.rows := by
  unfold count
  cases hfind : t.table.find? k with
  | none =>
    apply iff_of_false (lt_irrefl 0)
    rintro ⟨n, hn⟩
    rw [find?_eq_some_iff.mpr hn] at hfind
    cases hfind
  | some n =>
    have hmem := find?_eq_some_iff.mp hfind
    exact iff_of_true (t.pos _ hmem) ⟨n, hmem⟩

theorem count_add (t : Tally K) (k k' : K) :
    (t.add k).count k' = if k' = k then t.count k + 1 else t.count k' := by
  show ((t.table.put k (t.count k + 1)).find? k').getD 0 = _
  rw [find?_put]
  split <;> rfl

theorem count_remove (t : Tally K) (k k' : K) :
    (t.remove k).count k' = if k' = k then t.count k - 1 else t.count k' := by
  unfold remove
  split
  · next hle =>
    show ((t.table.erase k).find? k').getD 0 = _
    rw [find?_erase]
    split
    · rw [getD_none]
      omega
    · rfl
  · show ((t.table.put k (t.count k - 1)).find? k').getD 0 = _
    rw [find?_put]
    split <;> rfl

/-! ### Extremes -/

theorem first?_eq_some_iff : t.first? = some k ↔ 0 < t.count k ∧ ∀ k', 0 < t.count k' → k ≤ k' := by
  have hsorted := t.table.sorted
  simp only [count_pos_iff]
  unfold first?
  cases hrows : t.table.rows with
  | nil => simp
  | cons row rows =>
    rw [hrows] at hsorted
    have hleast : ∀ other ∈ row :: rows, row.1 ≤ other.1 := by
      intro other hother
      rcases mem_cons.mp hother with rfl | hother
      · exact le_rfl
      · exact (rel_of_pairwise_cons hsorted hother).le
    rw [head?_cons, map_some, some.injEq]
    constructor
    · rintro rfl
      exact ⟨⟨row.2, mem_cons_self⟩, fun k' ⟨n, hn⟩ => hleast (k', n) hn⟩
    · rintro ⟨⟨n, hn⟩, hk⟩
      exact le_antisymm (hleast (k, n) hn) (hk row.1 ⟨row.2, mem_cons_self⟩)

theorem last?_eq_some_iff : t.last? = some k ↔ 0 < t.count k ∧ ∀ k', 0 < t.count k' → k' ≤ k := by
  have hsorted := t.table.sorted
  simp only [count_pos_iff]
  unfold last?
  rcases eq_nil_or_concat t.table.rows with hrows | ⟨rows, row, hrows⟩
  · simp [hrows]
  · rw [hrows, concat_eq_append] at hsorted
    rw [hrows, concat_eq_append]
    have hgreatest : ∀ other ∈ rows ++ [row], other.1 ≤ row.1 := by
      intro other hother
      rcases mem_append.mp hother with hother | hother
      · exact ((pairwise_append.mp hsorted).2.2 other hother row (mem_singleton_self _)).le
      · exact (mem_singleton.mp hother) ▸ le_rfl
    rw [getLast?_concat, map_some, some.injEq]
    constructor
    · rintro rfl
      exact ⟨⟨row.2, mem_append_right _ (mem_singleton_self _)⟩, fun k' ⟨n, hn⟩ => hgreatest (k', n) hn⟩
    · rintro ⟨⟨n, hn⟩, hk⟩
      exact le_antisymm (hk row.1 ⟨row.2, mem_append_right _ (mem_singleton_self _)⟩) (hgreatest (k, n) hn)

end Tally
end Lib
