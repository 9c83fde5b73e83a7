import Mathlib.Data.List.DropRight
import Mathlib.Data.List.Infix
import Mathlib.Data.List.Nodup

/-!
# Caches in the order of last use

Keys in the order of their last use. A cache that moves a used key to the end, adds new ones there
and now and then drops keys from the front holds an end of that history: all of it, or at least as
many keys as it never drops below.
-/

namespace Lib
open List
variable {K : Type*}

/-- The cache holds an end of the history, all of it or at least `n` keys. -/
structure KeepsRecent (n : Nat) (cache recent : List K) : Prop where
  isSuffix : cache <:+ recent
  enough : cache = recent ∨ n ≤ cache.length
  nodup : recent.Nodup

namespace KeepsRecent
variable {n : Nat} {cache recent : List K} {k : K}

theorem nil (n : Nat) : KeepsRecent n ([] : List K) [] := ⟨suffix_refl _, Or.inl rfl, nodup_nil⟩

section
variable (h : KeepsRecent n cache recent)
include h

theorem nodup_cache : cache.Nodup := h.nodup.sublist h.isSuffix.sublist

theorem drop {m : Nat} (hm : n + m ≤ cache.length) : KeepsRecent n (cache.drop m) recent := by
  refine ⟨(drop_suffix m cache).trans h.isSuffix, Or.inr ?_, h.nodup⟩
  rw [length_drop]
  omega

/-- **A key among the last `n` in use is in the cache.** -/
theorem mem (hk : k ∈ recent.rtake n) : k ∈ cache := by
  rcases h.enough with heq | hle
  · rw [heq]
    exact (drop_suffix _ recent).subset hk
  · have hsuffix : recent.rtake n <:+ cache := by
      refine suffix_of_suffix_length_le (drop_suffix _ recent) h.isSuffix ?_
      rw [rtake, length_drop]
      omega
    exact hsuffix.subset hk

end
end KeepsRecent

/-! ### Using a key -/

variable [DecidableEq K]

def touch (k : K) (recent : List K) : List K := recent.erase k ++ [k]

theorem nodup_touch {k : K} {recent : List K} (h : recent.Nodup) : (touch k recent).Nodup := by
  rw [touch, nodup_append]
  refine ⟨h.erase k, nodup_singleton k, fun a ha b hb => ?_⟩
  rw [mem_singleton] at hb
  rintro rfl
  exact absurd hb (List.Nodup.mem_erase_iff h |>.mp ha).1

namespace KeepsRecent
variable {n : Nat} {cache recent : List K} {k : K}

theorem hit (h : KeepsRecent n cache recent) (hk : k ∈ cache) :
    KeepsRecent n (touch k cache) (touch k recent) := by
  refine ⟨?_, ?_, nodup_touch h.nodup⟩
  · obtain ⟨older, rfl⟩ := h.isSuffix
    have hnot : k ∉ older := fun hmem => (nodup_append.mp h.nodup).2.2 k hmem k hk rfl
    refine ⟨older, ?_⟩
    rw [touch, touch, erase_append_right _ hnot, append_assoc]
  · rcases h.enough with heq | hle
    · exact Or.inl (heq ▸ rfl)
    · right
      have hlength := length_erase_of_mem hk
      have hpos := length_pos_of_mem hk
      simp only [touch, length_append, length_singleton]
      omega

theorem miss (h : KeepsRecent n cache recent) (hk : k ∉ cache) :
    KeepsRecent n (cache ++ [k]) (touch k recent) := by
  refine ⟨?_, ?_, nodup_touch h.nodup⟩
  · obtain ⟨older, rfl⟩ := h.isSuffix
    by_cases hold : k ∈ older
    · exact ⟨older.erase k, by rw [touch, erase_append_left _ hold, append_assoc]⟩
    · have hnot : k ∉ older ++ cache := by
        rw [mem_append]
        rintro (hmem | hmem)
        · exact hold hmem
        · exact hk hmem
      exact ⟨older, by rw [touch, erase_of_not_mem hnot, append_assoc]⟩
  · rcases h.enough with heq | hle
    · left
      rw [touch, ← heq, erase_of_not_mem hk]
    · right
      rw [length_append]
      omega

end KeepsRecent
end Lib
