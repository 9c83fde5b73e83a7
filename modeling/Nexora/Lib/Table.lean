import Nexora.Lib.Fold
import Mathlib.Data.List.Induction
import Mathlib.Data.List.Pairwise
import Mathlib.Data.List.Sort
import Mathlib.Data.Finset.Card

/-!
# Tables of rows in key order

A table keeps its rows in the strict order of their keys, so that a key has at most one row and
writing it again replaces the row, and a scan reads the rows from a key on. Beside it stands the row
with the greatest key of an unordered list, the last one when several have it.
-/

namespace Lib
open List Option
variable {K V : Type*} [LinearOrder K]

/-! ### Writing rows -/

def putRow (k : K) (v : V) : List (K × V) → List (K × V)
  | [] => [(k, v)]
  | row :: rows =>
      if k < row.1 then (k, v) :: row :: rows
      else if k = row.1 then (k, v) :: rows
      else row :: putRow k v rows

variable {rows : List (K × V)} {k : K}

theorem mem_of_mem_putRow {v : V} {row : K × V} (h : row ∈ putRow k v rows) :
    row = (k, v) ∨ row ∈ rows := by
  induction rows with
  | nil => exact Or.inl (mem_singleton.mp h)
  | cons first rows ih =>
    unfold putRow at h
    split_ifs at h with hlt heq
    · exact mem_cons.mp h
    · obtain h | h := mem_cons.mp h
      · exact Or.inl h
      · exact Or.inr (mem_cons_of_mem _ h)
    · obtain h | h := mem_cons.mp h
      · exact Or.inr (h ▸ mem_cons_self)
      · exact (ih h).imp_right (mem_cons_of_mem _)

theorem mem_putRow_self (k : K) (v : V) (rows : List (K × V)) : (k, v) ∈ putRow k v rows := by
  induction rows with
  | nil => exact mem_singleton_self _
  | cons first rows ih =>
    unfold putRow
    split_ifs
    · exact mem_cons_self
    · exact mem_cons_self
    · exact mem_cons_of_mem _ ih

theorem sorted_putRow (k : K) (v : V) (h : rows.Pairwise fun a b => a.1 < b.1) :
    (putRow k v rows).Pairwise fun a b => a.1 < b.1 := by
  induction rows with
  | nil => exact pairwise_singleton _ _
  | cons first rows ih =>
    obtain ⟨hfirst, hrows⟩ := pairwise_cons.mp h
    unfold putRow
    split_ifs with hlt heq
    · refine pairwise_cons.mpr ⟨fun row hrow => ?_, h⟩
      obtain rfl | hrow := mem_cons.mp hrow
      · exact hlt
      · exact lt_trans hlt (hfirst row hrow)
    · exact pairwise_cons.mpr ⟨fun row hrow => heq ▸ hfirst row hrow, hrows⟩
    · refine pairwise_cons.mpr ⟨fun row hrow => ?_, ih hrows⟩
      obtain rfl | hrow := mem_of_mem_putRow hrow
      · exact lt_of_le_of_ne (not_lt.mp hlt) (Ne.symm heq)
      · exact hfirst row hrow

theorem mem_putRow_iff {v : V} (hsorted : rows.Pairwise fun a b => a.1 < b.1)
    {row : K × V} : row ∈ putRow k v rows ↔ row = (k, v) ∨ row ∈ rows ∧ row.1 ≠ k := by
  induction rows with
  | nil => simp [putRow]
  | cons first rows ih =>
    obtain ⟨hfirst, hrows⟩ := pairwise_cons.mp hsorted
    -- Behind a key that is not below the new one, all are above it.
    have hne : k ≤ first.1 → row ∈ rows → row.1 ≠ k := fun hle hrow => ne_of_gt (lt_of_le_of_lt hle (hfirst row hrow))
    unfold putRow
    split_ifs with hlt heq
    · have hne' : row = first → row.1 ≠ k := fun hrow => hrow ▸ ne_of_gt hlt
      simp only [mem_cons, or_and_right, and_iff_left_of_imp hne', and_iff_left_of_imp (hne hlt.le)]
    · have hnot : ¬ (row = first ∧ row.1 ≠ k) := fun h => h.2 (h.1 ▸ heq.symm)
      simp only [mem_cons, or_and_right, hnot, false_or, and_iff_left_of_imp (hne heq.le)]
    · have hne' : row = first → row.1 ≠ k := fun hrow => hrow ▸ Ne.symm heq
      simp [mem_cons, ih hrows, or_and_right, and_iff_left_of_imp hne', or_left_comm]

theorem rows_ext {rows more : List (K × V)} (hrows : rows.Pairwise fun a b => a.1 < b.1)
    (hmore : more.Pairwise fun a b => a.1 < b.1) (h : ∀ row, row ∈ rows ↔ row ∈ more) :
    rows = more := by
  have : Std.Antisymm fun a b : K × V => a.1 < b.1 := ⟨fun a b hab hba => absurd hba (lt_asymm hab)⟩
  have : Std.Irrefl fun a b : K × V => a.1 < b.1 := ⟨fun a => lt_irrefl a.1⟩
  exact hrows.eq_of_mem_iff hmore h

theorem filter_putRow {p : K → Bool} (k : K) (v : V)
    (hsorted : rows.Pairwise fun a b => a.1 < b.1) :
    (putRow k v rows).filter (fun row => p row.1) =
      if p k then putRow k v (rows.filter fun row => p row.1) else rows.filter fun row => p row.1 := by
  have hfilter := hsorted.filter fun row => p row.1
  refine rows_ext ((sorted_putRow k v hsorted).filter _) ?_ fun row => ?_
  · split
    · exact sorted_putRow k v hfilter
    · exact hfilter
  · rw [mem_filter, mem_putRow_iff hsorted]
    split
    · next hk =>
      rw [mem_putRow_iff hfilter, mem_filter]
      constructor
      · rintro ⟨rfl | ⟨hrow, hne⟩, hp⟩
        · exact Or.inl rfl
        · exact Or.inr ⟨⟨hrow, hp⟩, hne⟩
      · rintro (rfl | ⟨⟨hrow, hp⟩, hne⟩)
        · exact ⟨Or.inl rfl, hk⟩
        · exact ⟨Or.inr ⟨hrow, hne⟩, hp⟩
    · next hk =>
      rw [mem_filter]
      constructor
      · rintro ⟨rfl | ⟨hrow, -⟩, hp⟩
        · exact absurd hp hk
        · exact ⟨hrow, hp⟩
      · rintro ⟨hrow, hp⟩
        exact ⟨Or.inr ⟨hrow, fun heq => hk (heq ▸ hp)⟩, hp⟩

theorem map_putRow {L : Type*} [LinearOrder L] {f : K → L} {keys : Set K} (hf : StrictMonoOn f keys)
    (hk : k ∈ keys) (v : V) (hrows : ∀ row ∈ rows, row.1 ∈ keys) :
    (putRow k v rows).map (fun row => (f row.1, row.2)) = putRow (f k) v (rows.map fun row => (f row.1, row.2)) := by
  induction rows with
  | nil => rfl
  | cons first rows ih =>
    obtain ⟨hfirst, hrows⟩ := forall_mem_cons.mp hrows
    simp only [putRow, map_cons, hf.lt_iff_lt hk hfirst, hf.injOn.eq_iff hk hfirst]
    split_ifs
    · rfl
    · rfl
    · rw [map_cons, ih hrows]

theorem putRow_of_forall_lt (h : ∀ row ∈ rows, row.1 < k) (v : V) :
    putRow k v rows = rows ++ [(k, v)] := by
  induction rows with
  | nil => rfl
  | cons first rows ih =>
    obtain ⟨hfirst, hrows⟩ := forall_mem_cons.mp h
    rw [putRow, if_neg (lt_asymm hfirst), if_neg (ne_of_gt hfirst), ih hrows, cons_append]

theorem putRow_of_mem {v : V} (hsorted : rows.Pairwise fun a b => a.1 < b.1) (h : (k, v) ∈ rows) :
    putRow k v rows = rows := by
  induction rows with
  | nil => cases h
  | cons first rows ih =>
    obtain ⟨hfirst, hrows⟩ := pairwise_cons.mp hsorted
    obtain rfl | h := mem_cons.mp h
    · simp [putRow]
    · have hlt := hfirst _ h
      rw [putRow, if_neg (lt_asymm hlt), if_neg (ne_of_gt hlt), ih hrows h]

theorem getLast?_putRow (hsorted : rows.Pairwise fun a b => a.1 < b.1)
    (h : ∀ row ∈ rows, row.1 ≤ k) (v : V) : (putRow k v rows).getLast? = some (k, v) := by
  induction rows with
  | nil => rfl
  | cons first rows ih =>
    obtain ⟨hfirst, hrows⟩ := pairwise_cons.mp hsorted
    obtain ⟨hle, hle'⟩ := forall_mem_cons.mp h
    rw [putRow, if_neg (not_lt.mpr hle)]
    split
    · next heq =>
      have hnil : rows = [] := by
        apply eq_nil_iff_forall_not_mem.mpr
        intro row hrow
        exact absurd (hle' row hrow) (not_le.mpr (heq ▸ hfirst row hrow))
      rw [hnil]
      rfl
    · rw [getLast?_cons, ih hrows hle']
      rfl

/-! ### Parts of ordered lists -/

section
variable {A : Type*} {p : A → Bool} {l : List A} (h : l.Pairwise fun a b => p b → p a)
include h

theorem takeWhile_eq_filter : l.takeWhile p = l.filter p := by
  induction l with
  | nil => rfl
  | cons first l ih =>
    obtain ⟨hfirst, hl⟩ := pairwise_cons.mp h
    by_cases hp : p first
    · rw [takeWhile_cons_of_pos hp, filter_cons_of_pos hp, ih hl]
    · rw [takeWhile_cons_of_neg hp, filter_cons_of_neg hp, eq_comm, filter_eq_nil_iff]
      exact fun a ha hpa => hp (hfirst a ha hpa)

theorem dropWhile_eq_filter : l.dropWhile p = l.filter fun a => !p a := by
  induction l with
  | nil => rfl
  | cons first l ih =>
    obtain ⟨hfirst, hl⟩ := pairwise_cons.mp h
    by_cases hp : p first
    · rw [dropWhile_cons_of_pos hp, filter_cons_of_neg (by simp [hp]), ih hl]
    · have hrest : ∀ a ∈ l, (!p a) = true := fun a ha => by
        simpa using fun hpa => hp (hfirst a ha hpa)
      rw [dropWhile_cons_of_neg hp, filter_cons_of_pos (by simp [hp]), filter_eq_self.mpr hrest]

end

/-! ### Tables -/

structure Table (K V : Type*) [LinearOrder K] where
  rows : List (K × V)
  sorted : rows.Pairwise fun a b => a.1 < b.1

namespace Table

def empty : Table K V := ⟨[], List.Pairwise.nil⟩

def put (t : Table K V) (k : K) (v : V) : Table K V :=
  ⟨putRow k v t.rows, sorted_putRow k v t.sorted⟩

def putAll (t : Table K V) (rows : List (K × V)) : Table K V :=
  rows.foldl (fun t row => t.put row.1 row.2) t

def seek (t : Table K V) (start : K) : List (K × V) := t.rows.dropWhile fun row => row.1 < start

def seekForPrev (t : Table K V) (k : K) : Option (K × V) :=
  (t.rows.filter fun row => row.1 ≤ k).getLast?

def find? (t : Table K V) (k : K) : Option V := (t.rows.find? fun row => row.1 = k).map Prod.snd

def erase (t : Table K V) (k : K) : Table K V :=
  ⟨t.rows.filter fun row => row.1 ≠ k, t.sorted.filter _⟩

def eraseAll (t : Table K V) (ks : List K) : Table K V :=
  ⟨t.rows.filter fun row => row.1 ∉ ks, t.sorted.filter _⟩

def tail (t : Table K V) : Table K V := ⟨t.rows.tail, t.sorted.tail⟩

def map {W : Type*} (f : V → W) (t : Table K V) : Table K W where
  rows := t.rows.map fun row => (row.1, f row.2)
  sorted := List.pairwise_map.mpr t.sorted

def mapRows (f : K → V → V) (t : Table K V) : Table K V where
  rows := t.rows.map fun row => (row.1, f row.1 row.2)
  sorted := List.pairwise_map.mpr t.sorted

def filterMap (f : V → Option V) (t : Table K V) : Table K V where
  rows := t.rows.filterMap fun row => (f row.2).map fun v => (row.1, v)
  sorted := by
    refine t.sorted.filterMap _ fun row row' hlt new hnew new' hnew' => ?_
    obtain ⟨v, -, rfl⟩ := Option.map_eq_some_iff.mp hnew
    obtain ⟨v', -, rfl⟩ := Option.map_eq_some_iff.mp hnew'
    exact hlt

variable {t : Table K V} {rows : List (K × V)}

theorem mem_of_mem_putAll {row : K × V} (h : row ∈ (t.putAll rows).rows) :
    row ∈ rows ∨ row ∈ t.rows := by
  induction rows generalizing t with
  | nil => exact Or.inr h
  | cons first rows ih =>
    obtain h | h := ih h
    · exact Or.inl (mem_cons_of_mem _ h)
    · obtain h | h := mem_of_mem_putRow h
      · exact Or.inl (h ▸ mem_cons_self)
      · exact Or.inr h

theorem putAll_append (t : Table K V) (rows more : List (K × V)) :
    t.putAll (rows ++ more) = (t.putAll rows).putAll more :=
  foldl_append

theorem putAll_of_subset (h : ∀ row ∈ rows, row ∈ t.rows) : t.putAll rows = t := by
  induction rows with
  | nil => rfl
  | cons first rows ih =>
    obtain ⟨hfirst, hrows⟩ := forall_mem_cons.mp h
    have hput : t.put first.1 first.2 = t := by
      obtain ⟨old, hsorted⟩ := t
      simp only [put, mk.injEq]
      exact putRow_of_mem hsorted hfirst
    rw [putAll, foldl_cons, hput, ← putAll]
    exact ih hrows

theorem rows_putAll (h : (t.rows ++ rows).Pairwise fun a b => a.1 < b.1) :
    (t.putAll rows).rows = t.rows ++ rows := by
  induction rows generalizing t with
  | nil => exact (append_nil _).symm
  | cons first rows ih =>
    have hfirst : (t.put first.1 first.2).rows = t.rows ++ [first] :=
      putRow_of_forall_lt (fun row hrow => (pairwise_append.mp h).2.2 row hrow first mem_cons_self) first.2
    have hrest := ih (t := t.put first.1 first.2) (by rw [hfirst, append_assoc]; exact h)
    rw [hfirst, append_assoc] at hrest
    exact hrest

theorem rows_putAll_of_isPrefix {base old rows all : List (K × V)} (ht : t.rows = base ++ old)
    (hold : old <+: all) (hrows : rows <+: all)
    (hall : (base ++ all).Pairwise fun a b => a.1 < b.1) :
    (t.putAll rows).rows = base ++ (if rows.length ≤ old.length then old else rows) := by
  split
  · next hle =>
    have hsubset : ∀ row ∈ rows, row ∈ t.rows := fun row hrow =>
      ht ▸ mem_append_right _ ((prefix_of_prefix_length_le hrows hold hle).subset hrow)
    rw [putAll_of_subset hsubset, ht]
  · next hlt =>
    obtain ⟨more, rfl⟩ := prefix_of_prefix_length_le hold hrows (by omega)
    have hsubset : ∀ row ∈ old, row ∈ t.rows := fun row hrow => ht ▸ mem_append_right _ hrow
    have hsorted : (t.rows ++ more).Pairwise fun a b => a.1 < b.1 := by
      rw [ht, append_assoc]
      exact hall.sublist ((List.Sublist.refl base).append hrows.sublist)
    rw [putAll_append, putAll_of_subset hsubset, rows_putAll hsorted, ht, append_assoc]

/-! ### Single keys -/

theorem value_eq_of_mem {k : K} {v v' : V} (h : (k, v) ∈ t.rows) (h' : (k, v') ∈ t.rows) :
    v = v' := by
  have hpair : t.rows.Pairwise fun a b => a.1 = b.1 → a.2 = b.2 :=
    t.sorted.imp fun hlt heq => absurd heq hlt.ne
  have hflip : t.rows.Pairwise fun a b => b.1 = a.1 → b.2 = a.2 :=
    hpair.imp fun hab heq => (hab heq.symm).symm
  exact List.Pairwise.forall_of_forall_of_flip (fun _ _ _ => rfl) hpair hflip h h' rfl

theorem find?_eq_some_iff {k : K} {v : V} : t.find? k = some v ↔ (k, v) ∈ t.rows := by
  constructor
  · intro h
    obtain ⟨row, hrow, rfl⟩ := map_eq_some_iff.mp h
    have hkey := find?_some hrow
    rw [← of_decide_eq_true hkey]
    exact mem_of_find?_eq_some hrow
  · intro hmem
    cases hfind : t.rows.find? fun row => row.1 = k with
    | none => exact absurd (decide_eq_true rfl) (find?_eq_none.mp hfind _ hmem)
    | some row =>
      have hkey := find?_some hfind
      have hrow : (k, row.2) ∈ t.rows := of_decide_eq_true hkey ▸ mem_of_find?_eq_some hfind
      simp [find?, hfind, value_eq_of_mem hrow hmem]

def keys (t : Table K V) : Finset K := (t.rows.map Prod.fst).toFinset

theorem nodup_map_fst (t : Table K V) : (t.rows.map Prod.fst).Nodup :=
  pairwise_map.mpr (t.sorted.imp fun hlt => hlt.ne)

theorem card_keys (t : Table K V) : t.keys.card = t.rows.length := by
  rw [keys, toFinset_card_of_nodup t.nodup_map_fst, length_map]

theorem keys_put (t : Table K V) (k : K) (v : V) : (t.put k v).keys = insert k t.keys := by
  ext k'
  simp only [keys, Finset.mem_insert, List.mem_toFinset, List.mem_map, put, mem_putRow_iff t.sorted]
  constructor
  · rintro ⟨row, rfl | ⟨hrow, -⟩, rfl⟩
    · exact .inl rfl
    · exact .inr ⟨row, hrow, rfl⟩
  · rintro (rfl | ⟨row, hrow, rfl⟩)
    · exact ⟨(k', v), .inl rfl, rfl⟩
    · by_cases hkey : row.1 = k
      · exact ⟨(k, v), .inl rfl, hkey.symm⟩
      · exact ⟨row, .inr ⟨hrow, hkey⟩, rfl⟩

@[simp]
theorem find?_empty (k : K) : (empty : Table K V).find? k = none := rfl

theorem find?_put (t : Table K V) (k : K) (v : V) (k' : K) :
    (t.put k v).find? k' = if k' = k then some v else t.find? k' := by
  ext w
  rw [find?_eq_some_iff, put, mem_putRow_iff t.sorted]
  split
  · next heq => simp [heq, eq_comm]
  · next hne => simp [hne, find?_eq_some_iff]

theorem find?_erase (t : Table K V) (k k' : K) :
    (t.erase k).find? k' = if k' = k then none else t.find? k' := by
  ext w
  rw [find?_eq_some_iff, erase, mem_filter]
  split
  · next heq => simp [heq]
  · next hne => simp [hne, find?_eq_some_iff]

theorem of_find?_put {k k' : K} {v w : V} (h : (t.put k v).find? k' = some w) :
    k' = k ∧ w = v ∨ k' ≠ k ∧ t.find? k' = some w := by
  rw [find?_put] at h
  split at h
  · next heq =>
    cases h
    exact .inl ⟨heq, rfl⟩
  · next hne => exact .inr ⟨hne, h⟩

theorem of_find?_erase {k k' : K} {w : V} (h : (t.erase k).find? k' = some w) :
    k' ≠ k ∧ t.find? k' = some w := by
  rw [find?_erase] at h
  split at h
  · cases h
  · next hne => exact ⟨hne, h⟩

theorem ext_find? {t t' : Table K V} (h : ∀ k, t.find? k = t'.find? k) : t = t' := by
  have hrows : t.rows = t'.rows := by
    apply rows_ext t.sorted t'.sorted
    intro row
    rw [← find?_eq_some_iff, ← find?_eq_some_iff, h]
  cases t
  cases t'
  congr

theorem find?_putAll (t : Table K V) (rows : List (K × V)) (k : K) :
    (t.putAll rows).find? k = lastWrite (fun row => if row.1 = k then some (some row.2) else none)
    (t.find? k) rows := by
  induction rows generalizing t with
  | nil => rfl
  | cons row rows ih =>
    show ((t.put row.1 row.2).putAll rows).find? k = _
    rw [ih, lastWrite_cons, find?_put]
    by_cases h : row.1 = k
    · rw [if_pos h.symm, if_pos h, getD_some]
    · rw [if_neg (Ne.symm h), if_neg h, getD_none]

theorem find?_putAll_of_mem (h : ∀ row ∈ rows, ∀ row' ∈ rows, row.1 = row'.1 → row = row')
    {row : K × V} (hrow : row ∈ rows) : (t.putAll rows).find? row.1 = some row.2 := by
  rw [find?_putAll]
  refine lastWrite_eq_of_mem hrow (if_pos rfl) fun row' hrow' w hw => ?_
  obtain ⟨hkey, hw⟩ := ite_none_right_eq_some.mp hw
  rw [h row hrow row' hrow' hkey.symm]
  exact (some.inj hw).symm

theorem perm_rows_putAll (h : (rows.map Prod.fst).Nodup) :
    rows.Perm ((empty : Table K V).putAll rows).rows := by
  have hinj : ∀ row ∈ rows, ∀ row' ∈ rows, row.1 = row'.1 → row = row' :=
    fun row hrow row' hrow' => inj_on_of_nodup_map h hrow hrow'
  refine (perm_ext_iff_of_nodup h.of_map (nodup_map_fst _).of_map).mpr fun row => ⟨fun hrow => ?_, fun hrow => ?_⟩
  · exact find?_eq_some_iff.mp (find?_putAll_of_mem hinj hrow)
  · exact (mem_of_mem_putAll hrow).resolve_right not_mem_nil

theorem putAll_empty (h : ∀ row, row ∈ rows ↔ row ∈ t.rows) :
    (empty : Table K V).putAll rows = t := by
  have hagree : ∀ row ∈ rows, ∀ row' ∈ rows, row.1 = row'.1 → row = row' := by
    intro row hrow row' hrow' hkey
    have hmem : (row.1, row'.2) ∈ t.rows := hkey ▸ (h row').mp hrow'
    exact Prod.ext hkey (value_eq_of_mem ((h row).mp hrow) hmem)
  apply ext_find?
  intro k
  ext v
  rw [find?_eq_some_iff, find?_eq_some_iff]
  constructor
  · intro hmem
    obtain hmem | hmem := mem_of_mem_putAll hmem
    · exact (h (k, v)).mp hmem
    · exact absurd hmem not_mem_nil
  · intro hmem
    exact find?_eq_some_iff.mp (find?_putAll_of_mem hagree ((h (k, v)).mpr hmem))

theorem mem_eraseAll_iff {ks : List K} {row : K × V} :
    row ∈ (t.eraseAll ks).rows ↔ row ∈ t.rows ∧ row.1 ∉ ks := by
  simp [eraseAll]

theorem find?_eraseAll (t : Table K V) (ks : List K) (k : K) :
    (t.eraseAll ks).find? k = if k ∈ ks then none else t.find? k := by
  refine ext fun v => ?_
  rw [find?_eq_some_iff, mem_eraseAll_iff]
  split
  · next hmem => exact iff_of_false (fun h => h.2 hmem) (fun h => nomatch h)
  · next hmem => rw [find?_eq_some_iff, and_iff_left hmem]

theorem find?_filterMap (f : V → Option V) (t : Table K V) (k : K) :
    (t.filterMap f).find? k = (t.find? k).bind f := by
  ext w
  rw [find?_eq_some_iff, filterMap, mem_filterMap, bind_eq_some_iff]
  constructor
  · rintro ⟨row, hrow, heq⟩
    obtain ⟨v, hv, hpair⟩ := map_eq_some_iff.mp heq
    obtain ⟨rfl, rfl⟩ := Prod.mk.inj hpair
    exact ⟨row.2, find?_eq_some_iff.mpr hrow, hv⟩
  · rintro ⟨v, hv, hw⟩
    exact ⟨(k, v), find?_eq_some_iff.mp hv, by rw [hw, map_some]⟩

variable {W : Type*}

theorem find?_of_rows_eq_map {f : K → V → W} {t' : Table K W}
    (h : t'.rows = t.rows.map fun row => (row.1, f row.1 row.2)) (k : K) :
    t'.find? k = (t.find? k).map (f k) := by
  ext w
  rw [find?_eq_some_iff, h, List.mem_map, map_eq_some_iff]
  constructor
  · rintro ⟨row, hrow, heq⟩
    obtain ⟨rfl, rfl⟩ := Prod.mk.inj heq
    exact ⟨row.2, find?_eq_some_iff.mpr hrow, rfl⟩
  · rintro ⟨v, hv, rfl⟩
    exact ⟨(k, v), find?_eq_some_iff.mp hv, rfl⟩

theorem find?_mapRows (f : K → V → V) (t : Table K V) (k : K) :
    (t.mapRows f).find? k = (t.find? k).map (f k) :=
  find?_of_rows_eq_map rfl k

theorem find?_map (f : V → W) (t : Table K V) (k : K) : (t.map f).find? k = (t.find? k).map f :=
  find?_of_rows_eq_map (f := fun _ => f) rfl k

def gather (rows : List (K × V)) : Table K (List V) :=
  rows.foldl (fun t row => t.put row.1 ((t.find? row.1).getD [] ++ [row.2])) empty

theorem find?_gather (rows : List (K × V)) (k : K) :
    ((gather rows).find? k).getD [] = (rows.filter fun row => row.1 = k).map Prod.snd := by
  induction rows using reverseRecOn with
  | nil => rfl
  | append_singleton rows row ih =>
    have hlast : gather (rows ++ [row]) = (gather rows).put row.1 (((gather rows).find? row.1).getD [] ++ [row.2]) := by
      rw [gather, foldl_append]
      rfl
    rw [hlast, find?_put, filter_append, map_append, ← ih]
    by_cases hkey : row.1 = k
    · subst hkey
      rw [if_pos rfl, filter_cons_of_pos (by simp), filter_nil, getD_some]
      rfl
    · rw [if_neg (Ne.symm hkey), filter_cons_of_neg (by simpa using hkey), filter_nil, map_nil, append_nil]

theorem find?_putAll_or (t : Table K V) (rows : List (K × V)) (k : K) :
    (t.putAll rows).find? k = ((empty.putAll rows).find? k).or (t.find? k) := by
  induction rows using reverseRecOn with
  | nil => rfl
  | append_singleton rows row ih =>
    rw [putAll_append, putAll_append]
    show ((t.putAll rows).put row.1 row.2).find? k = (((empty.putAll rows).put row.1 row.2).find? k).or _
    rw [find?_put, find?_put, ih]
    by_cases hkey : k = row.1
    · rw [if_pos hkey, if_pos hkey, some_or]
    · rw [if_neg hkey, if_neg hkey]

theorem map_putAll (f : V → W) (t : Table K V) (rows : List (K × V)) :
    (t.putAll rows).map f = (t.map f).putAll (rows.map fun row => (row.1, f row.2)) := by
  induction rows generalizing t with
  | nil => rfl
  | cons row rows ih =>
    have hput : (t.put row.1 row.2).map f = (t.map f).put row.1 (f row.2) := by
      refine ext_find? fun k => ?_
      rw [find?_map, find?_put, find?_put, find?_map]
      split <;> rfl
    show ((t.put row.1 row.2).putAll rows).map f = _
    rw [ih, hput]
    rfl

theorem putAll_rows_map_putAll (f : V → W) (t : Table K W) (rows : List (K × V)) :
    t.putAll ((empty.putAll rows).map f).rows = t.putAll (rows.map fun row => (row.1, f row.2)) := by
  refine ext_find? fun k => ?_
  rw [map_putAll, find?_putAll_or, find?_putAll_or t, putAll_empty fun _ => Iff.rfl]
  rfl

def upsertAll {A : Type*} (key : A → K) (d : V) (f : V → A → V) (t : Table K V) (l : List A) :
    Table K V :=
  l.foldl (fun t a => t.put (key a) (f ((t.find? (key a)).getD d) a)) t

theorem find?_upsertAll {A : Type*} (key : A → K) (d : V) (f : V → A → V) (t : Table K V)
    (l : List A) (k : K) :
    (upsertAll key d f t l).find? k =
      if (l.filter fun a => key a = k) = [] then t.find? k
        else some ((l.filter fun a => key a = k).foldl f ((t.find? k).getD d)) := by
  induction l generalizing t with
  | nil => rfl
  | cons a l ih =>
    show (upsertAll key d f (t.put (key a) (f ((t.find? (key a)).getD d) a)) l).find? k = _
    rw [ih, find?_put]
    by_cases hkey : key a = k
    · rw [if_pos hkey.symm, filter_cons_of_pos (by simpa using hkey), if_neg (cons_ne_nil _ _), foldl_cons, hkey]
      split
      · rename_i hnil
        rw [hnil]
        rfl
      · rfl
    · rw [if_neg (Ne.symm hkey), filter_cons_of_neg (by simpa using hkey)]

theorem filter_rows_eq (t : Table K V) (k : K) :
    (t.rows.filter fun row => row.1 = k) = (t.find? k).toList.map fun v => (k, v) := by
  refine rows_ext (t.sorted.filter _) ?_ fun row => ?_
  · cases t.find? k with
    | none => exact List.Pairwise.nil
    | some v => exact pairwise_singleton _ _
  · obtain ⟨k', v⟩ := row
    simp only [mem_filter, decide_eq_true_eq, List.mem_map, mem_toList, Prod.mk.injEq]
    constructor
    · rintro ⟨hmem, rfl⟩
      exact ⟨v, find?_eq_some_iff.mpr hmem, rfl, rfl⟩
    · rintro ⟨w, hw, rfl, rfl⟩
      exact ⟨find?_eq_some_iff.mp hw, rfl⟩

/-! ### Scans -/

theorem takeWhile_seek (t : Table K V) {start : K} {p : K → Bool}
    (hp : ∀ k k', start ≤ k → k ≤ k' → p k' → p k) :
    ((t.seek start).takeWhile fun row => p row.1) = t.rows.filter fun row => decide (start ≤ row.1) && p row.1 := by
  have hdrop : t.rows.Pairwise fun a b => decide (b.1 < start) → decide (a.1 < start) :=
    t.sorted.imp fun hab hb => decide_eq_true (lt_trans hab (of_decide_eq_true hb))
  have hrest : (t.rows.filter fun row => !decide (row.1 < start)).Pairwise fun a b => p b.1 →
      p a.1 := by
    rw [pairwise_filter]
    refine t.sorted.imp fun hab ha _ => hp _ _ ?_ (le_of_lt hab)
    simpa using ha
  rw [seek, dropWhile_eq_filter hdrop, takeWhile_eq_filter hrest, List.filter_filter]
  refine filter_congr fun row _ => ?_
  rw [Bool.and_comm, ← decide_not]
  simp

theorem getLast?_filter_eq_seekForPrev (t : Table K V) {k : K} {p : K → Bool}
    (hp : ∀ a b, a ≤ b → b ≤ k → p a → p b) :
    ((t.rows.filter fun row => p row.1).filter fun row => row.1 ≤ k).getLast? =
      (t.seekForPrev k).filter fun row => p row.1 := by
  rw [List.filter_filter, filter_congr fun row _ => Bool.and_comm _ _, ← List.filter_filter, seekForPrev]
  have hsorted := t.sorted.filter fun row => decide (row.1 ≤ k)
  have hle : ∀ row ∈ t.rows.filter fun row => decide (row.1 ≤ k), row.1 ≤ k := fun row hrow =>
    of_decide_eq_true (mem_filter.mp hrow).2
  generalize t.rows.filter (fun row => decide (row.1 ≤ k)) = rows at hsorted hle
  induction rows using reverseRecOn with
  | nil => rfl
  | append_singleton rows last _ =>
    rw [getLast?_concat, filter_append]
    by_cases hlast : p last.1
    · simp [hlast, filter_some]
    · have hnone : rows.filter (fun row => p row.1) = [] := by
        apply filter_eq_nil_iff.mpr
        intro row hrow hrowp
        have hlt := (pairwise_append.mp hsorted).2.2 row hrow last (mem_singleton_self _)
        exact hlast (hp _ _ (le_of_lt hlt) (hle last (by simp)) hrowp)
      simp [hlast, hnone, filter_some]

end Table

/-! ### The greatest key of an unordered list -/

def latest (rows : List (K × V)) : Option (K × V) :=
  rows.foldl (fun best row => match best with
    | none => some row
    | some b => if b.1 ≤ row.1 then some row else some b) none

theorem latest_append_singleton (rows : List (K × V)) (row : K × V) :
    latest (rows ++ [row]) =
      match latest rows with
      | none => some row
      | some b => if b.1 ≤ row.1 then some row else some b := by
  rw [latest, foldl_append]
  rfl

theorem mem_of_latest {rows : List (K × V)} {row : K × V} (h : latest rows = some row) :
    row ∈ rows := by
  induction rows using reverseRecOn with
  | nil => cases h
  | append_singleton rows last ih =>
    rw [latest_append_singleton] at h
    cases hbest : latest rows with
    | none =>
      simp only [hbest, some.injEq] at h
      exact h ▸ mem_append_right _ (mem_singleton_self _)
    | some best =>
      simp only [hbest] at h
      split at h
      · exact some.inj h ▸ mem_append_right _ (mem_singleton_self _)
      · exact mem_append_left _ (ih (hbest.trans h))

theorem latest_append_of_forall_le {k : K} {rows : List (K × V)} (h : ∀ row ∈ rows, row.1 ≤ k)
    (v : V) :
    latest (rows ++ [(k, v)]) = some (k, v) := by
  rw [latest_append_singleton]
  cases hbest : latest rows with
  | none => rfl
  | some best => exact if_pos (h best (mem_of_latest hbest))

/-! ### Reading values -/

theorem mapM_eq_ok_iff {E A B : Type} {f : A → Except E B} {l : List A} {l' : List B} :
    l.mapM f = .ok l' ↔ Forall₂ (fun a b => f a = .ok b) l l' := by
  induction l generalizing l' with
  | nil => simp [pure, Except.pure, eq_comm]
  | cons a l ih =>
    rw [mapM_cons, forall₂_cons_left_iff]
    simp only [← ih]
    cases f a with
    | error e => simp [bind, Except.bind]
    | ok b => cases l.mapM f <;> simp [bind, Except.bind, pure, Except.pure, eq_comm]

section
variable {A C : Type} {f : A → Option C} {l : List A}

theorem mem_iff_of_mapM_eq_some {l' : List C} (h : l.mapM f = some l') (c : C) :
    c ∈ l' ↔ ∃ a ∈ l, f a = some c := by
  induction l generalizing l' with
  | nil =>
    cases h
    simp
  | cons a l ih =>
    rw [mapM_cons] at h
    obtain ⟨d, hd, h⟩ := bind_eq_some_iff.mp h
    obtain ⟨rest, hrest, h⟩ := bind_eq_some_iff.mp h
    cases h
    rw [mem_cons, ih hrest, exists_mem_cons_iff, hd, some.injEq, eq_comm]

theorem exists_mapM_eq_some (h : ∀ a ∈ l, ∃ c, f a = some c) :
    ∃ l', l.mapM f = some l' ∧ ∀ c, c ∈ l' ↔ ∃ a ∈ l, f a = some c := by
  suffices hsome : ∃ l', l.mapM f = some l' from hsome.imp fun _ hl' => ⟨hl', mem_iff_of_mapM_eq_some hl'⟩
  induction l with
  | nil => exact ⟨[], rfl⟩
  | cons a l ih =>
    obtain ⟨hc, hl⟩ := forall_mem_cons.mp h
    obtain ⟨⟨c, hc⟩, l', hl'⟩ := And.intro hc (ih hl)
    exact ⟨c :: l', by rw [mapM_cons, hc, hl']; rfl⟩

end
end Lib
