import Nexora.Lib.Table
import Mathlib.Algebra.BigOperators.Ring.Finset

/-!
# Sets under keys

A map from keys to finite sets that keeps no empty set: taking the last element out of a set takes
the key out of the map.
-/

namespace Lib
open Option Finset
variable {K A : Type*} [LinearOrder K] [DecidableEq A]

abbrev Buckets (K A : Type*) [LinearOrder K] := Table K (Finset A)

namespace Buckets

def bucket (b : Buckets K A) (k : K) : Finset A := (b.find? k).getD ∅

def add (b : Buckets K A) (k : K) (a : A) : Buckets K A := b.put k (insert a (b.bucket k))

def remove (b : Buckets K A) (k : K) (a : A) : Buckets K A :=
  match b.find? k with
  | none => b
  | some set => if set.erase a = ∅ then b.erase k else b.put k (set.erase a)

def retain (b : Buckets K A) (p : A → Bool) : Buckets K A :=
  b.filterMap fun set => if set.filter (fun a => p a) = ∅ then none else some (set.filter fun a => p a)

def NoEmpty (b : Buckets K A) : Prop := ∀ k, b.find? k ≠ some ∅

variable {b : Buckets K A}

@[simp] theorem mem_bucket_add {k k' : K} {a a' : A} :
    a' ∈ (b.add k a).bucket k' ↔ (k' = k ∧ a' = a) ∨ a' ∈ b.bucket k' := by
  unfold bucket add
  rw [Table.find?_put]
  split
  · next heq => rw [heq, getD_some, mem_insert, bucket, eq_self, true_and]
  · next hne => simp only [hne, false_and, false_or]

@[simp] theorem mem_bucket_remove {k k' : K} {a a' : A} :
    a' ∈ (b.remove k a).bucket k' ↔ ¬ (k' = k ∧ a' = a) ∧ a' ∈ b.bucket k' := by
  have hbucket : (b.remove k a).bucket k' = if k' = k then (b.bucket k).erase a else b.bucket k' := by
    unfold bucket remove
    cases hfind : b.find? k with
    | none =>
      simp only
      split
      · next heq => rw [heq, hfind, getD_none, erase_empty]
      · rfl
    | some set =>
      simp only [getD_some]
      split
      · next hempty =>
        rw [Table.find?_erase, hempty]
        split <;> rfl
      · rw [Table.find?_put]
        split <;> rfl
  rw [hbucket]
  split
  · next heq => rw [heq, mem_erase, eq_self, true_and]
  · next hne => simp only [hne, false_and, not_false_eq_true, true_and]

@[simp] theorem mem_bucket_retain {p : A → Bool} {k : K} {a : A} :
    a ∈ (b.retain p).bucket k ↔ p a ∧ a ∈ b.bucket k := by
  have hbucket : (b.retain p).bucket k = (b.bucket k).filter fun a => p a := by
    unfold bucket retain
    rw [Table.find?_filterMap]
    cases b.find? k with
    | none => rfl
    | some set =>
      rw [bind_some, getD_some]
      split
      · next hempty => rw [hempty, getD_none]
      · rfl
  rw [hbucket, mem_filter, and_comm]

theorem NoEmpty.add (h : b.NoEmpty) (k : K) (a : A) : (b.add k a).NoEmpty := by
  intro k'
  have hk := h k'
  rw [Buckets.add, Table.find?_put]
  grind [insert_ne_empty]

theorem NoEmpty.remove (h : b.NoEmpty) (k : K) (a : A) : (b.remove k a).NoEmpty := by
  intro k'
  have hk := h k'
  unfold Buckets.remove
  grind [Table.find?_erase, Table.find?_put]

theorem noEmpty_retain (p : A → Bool) : (b.retain p).NoEmpty := by
  intro k
  rw [retain, Table.find?_filterMap]
  cases b.find? k <;> grind

theorem counts {pairs : Finset (K × A)} (hne : b.NoEmpty)
    (h : ∀ k a, a ∈ b.bucket k ↔ (k, a) ∈ pairs) :
    b.rows.length = (pairs.image Prod.fst).card ∧ (b.rows.map fun row => row.2.card).sum = pairs.card := by
  have hrow : ∀ row ∈ b.rows, b.bucket row.1 = row.2 := by
    intro row hrow
    rw [bucket, Table.find?_eq_some_iff.mpr hrow, getD_some]
  have hkeys : pairs.image Prod.fst = b.keys := by
    ext k
    rw [mem_image, Table.keys, List.mem_toFinset, List.mem_map]
    constructor
    · rintro ⟨⟨k, a⟩, hpair, rfl⟩
      cases hfind : b.find? k with
      | none => simp [← h, bucket, hfind] at hpair
      | some set => exact ⟨(k, set), Table.find?_eq_some_iff.mp hfind, rfl⟩
    · rintro ⟨row, hmem, rfl⟩
      have hfind := hne row.1
      rw [Table.find?_eq_some_iff.mpr hmem] at hfind
      obtain ⟨a, ha⟩ := nonempty_iff_ne_empty.mpr fun hempty => hfind (congrArg some hempty)
      exact ⟨(row.1, a), (h _ _).mp ((hrow row hmem).symm ▸ ha), rfl⟩
  have hcard : ∀ k, (pairs.filter fun pair => pair.1 = k).card = (b.bucket k).card := by
    intro k
    have hfilter : (pairs.filter fun pair => pair.1 = k) = (b.bucket k).image (Prod.mk k) := by
      ext
      grind
    rw [hfilter, card_image_of_injective _ (Prod.mk_right_injective k)]
  rw [card_eq_sum_card_image Prod.fst pairs, hkeys, Table.card_keys]
  simp only [hcard]
  rw [Table.keys, List.sum_toFinset _ b.nodup_map_fst, List.map_map]
  exact ⟨trivial, congrArg List.sum (List.map_congr_left fun row hmem => congrArg card (hrow row hmem).symm)⟩

end Buckets
end Lib
