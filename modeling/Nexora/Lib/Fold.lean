import Nexora.Lib.Run
import Mathlib.Order.Defs.LinearOrder
import Mathlib.Order.Lattice

/-!
# Folds of overwriting updates

A log of updates is folded into a state. When every update absorbs its own earlier occurrence,
folding a list twice is folding it once; and when a part of the state is only overwritten, the last
update that writes it decides its value.
-/

namespace Lib
open List

/-! ### Absorption -/

section Absorb
variable {σ α : Type*} {f : σ → α → σ} {P : α → Prop}

/-- An update that is repeated makes its first occurrence void, also with another update between the
two. -/
structure Absorbs (f : σ → α → σ) (P : α → Prop) : Prop where
  once : ∀ s a, P a → f (f s a) a = f s a
  between : ∀ s a b, P a → P b → f (f (f s a) b) a = f (f s b) a

theorem Absorbs.foldl_one (h : Absorbs f P) {a : α} (ha : P a) {l : List α} (hl : ∀ b ∈ l, P b)
    (s : σ) :
    f (l.foldl f (f s a)) a = f (l.foldl f s) a := by
  induction l generalizing s with
  | nil => exact h.once s a ha
  | cons b l ih =>
    obtain ⟨hb, hl⟩ := forall_mem_cons.mp hl
    calc f (l.foldl f (f (f s a) b)) a
      _ = f (l.foldl f (f (f (f s a) b) a)) a := (ih hl _).symm
      _ = f (l.foldl f (f (f s b) a)) a := by rw [h.between s a b ha hb]
      _ = f (l.foldl f (f s b)) a := ih hl _

/-- **A list that is folded again makes its first fold void.** -/
theorem Absorbs.foldl_again (h : Absorbs f P) {u w : List α} (hu : ∀ a ∈ u, P a) (hw : ∀ b ∈ w, P b)
    (s : σ) :
    u.foldl f (w.foldl f (u.foldl f s)) = u.foldl f (w.foldl f s) := by
  induction u generalizing w s with
  | nil => rfl
  | cons a u ih =>
    obtain ⟨ha, hu⟩ := forall_mem_cons.mp hu
    have hw' : ∀ b ∈ w ++ [a], P b := by
      intro b hb
      obtain hb | hb := mem_append.mp hb
      · exact hw b hb
      · exact mem_singleton.mp hb ▸ ha
    have hih := ih hu hw' (f s a)
    simp only [foldl_append, foldl_cons, foldl_nil] at hih ⊢
    rw [hih, h.foldl_one ha hw]

end Absorb

theorem eq_take_append_cons_drop {α : Type*} {l : List α} {i : Nat} {a : α} (h : l[i]? = some a) :
    l = l.take i ++ a :: l.drop (i + 1) := by
  obtain ⟨hi, rfl⟩ := List.getElem?_eq_some_iff.mp h
  simp

/-! ### Last writes -/

section LastWrite
variable {α V : Type*}

/-- The value of a part after the updates: what the last one that writes it wrote. -/
def lastWrite (writes : α → Option V) (initial : V) (l : List α) : V :=
  l.foldl (fun v a => (writes a).getD v) initial

variable (writes : α → Option V) (initial : V)

@[simp]
theorem lastWrite_cons (a : α) (l : List α) :
    lastWrite writes initial (a :: l) = lastWrite writes ((writes a).getD initial) l := rfl

theorem lastWrite_append (l l' : List α) :
    lastWrite writes initial (l ++ l') = lastWrite writes (lastWrite writes initial l) l' :=
  foldl_append

theorem lastWrite_append_singleton (l : List α) (a : α) :
    lastWrite writes initial (l ++ [a]) = (writes a).getD (lastWrite writes initial l) :=
  lastWrite_append writes initial l [a]

theorem lastWrite_map {β : Type*} (f : β → α) (l : List β) :
    lastWrite writes initial (l.map f) = lastWrite (writes ∘ f) initial l :=
  foldl_map

variable {writes initial}
variable {l : List α}

theorem lastWrite_of_forall_getD (h : ∀ a ∈ l, (writes a).getD initial = initial) :
    lastWrite writes initial l = initial := by
  induction l with
  | nil => rfl
  | cons a l ih =>
    rw [lastWrite_cons, h a mem_cons_self]
    exact ih fun b hb => h b (mem_cons_of_mem a hb)

theorem lastWrite_cons_append {a : α} {v : V} (ha : writes a = some v)
    (h : ∀ b ∈ l, writes b = writes a) (l' : List α) :
    lastWrite writes initial (a :: (l ++ l')) = lastWrite writes initial (l ++ a :: l') := by
  have hl : lastWrite writes v l = v := lastWrite_of_forall_getD fun b hb => by rw [h b hb, ha, Option.getD_some]
  simp [lastWrite_cons, lastWrite_append, ha, hl]

theorem lastWrite_eq_of_mem {a : α} (hmem : a ∈ l) {v : V} (ha : writes a = some v)
    (hall : ∀ b ∈ l, ∀ w ∈ writes b, w = v) : lastWrite writes initial l = v := by
  obtain ⟨front, back, rfl⟩ := append_of_mem hmem
  rw [lastWrite_append, lastWrite_cons, ha, Option.getD_some]
  refine lastWrite_of_forall_getD fun b hb => ?_
  cases hb' : writes b with
  | none => rfl
  | some w => exact hall b (mem_append_right _ (mem_cons_of_mem a hb)) w hb'

theorem lastWrite_congr {writes' : α → Option V} (h : ∀ a ∈ l, writes a = writes' a) :
    lastWrite writes initial l = lastWrite writes' initial l := by
  induction l generalizing initial with
  | nil => rfl
  | cons a l ih =>
    obtain ⟨ha, hl⟩ := forall_mem_cons.mp h
    simp [lastWrite_cons, ha, ih hl]

theorem foldl_update_apply {A : Type*} [DecidableEq A] (address : α → A) (value : α → V) (f : A → V)
    (l : List α) (x : A) :
    l.foldl (fun f a => Function.update f (address a) (value a)) f x =
      lastWrite (fun a => if address a = x then some (value a) else none) (f x) l := by
  induction l generalizing f with
  | nil => rfl
  | cons a l ih =>
    rw [foldl_cons, ih, lastWrite_cons]
    by_cases h : address a = x
    · simp [← h]
    · rw [if_neg h, Function.update_of_ne (Ne.symm h), Option.getD_none]

theorem run_eq_lastWrite {σ ℓ : Type} {step : σ → ℓ → σ} {cond : σ → ℓ → Prop} {read : σ → V}
    {writes : ℓ → Option V}
    (hstep : ∀ s label, cond s label → read (step s label) = (writes label).getD (read s)) {s : σ}
    {labels : List ℓ} (h : Along step cond s labels) :
    read (run step s labels) = lastWrite writes (read s) labels := by
  induction labels generalizing s with
  | nil => rfl
  | cons label labels ih => rw [run_cons, ih h.2, hstep s label h.1, lastWrite_cons]

end LastWrite

/-! ### Registers with a time -/

section Register
variable {T V : Type*} [LinearOrder T]

def lwwWins (stored : Option T) (time : T) : Bool :=
  match stored with
  | some existing => existing ≤ time
  | none => true

/-- A write into a last-writer-wins register, which keeps the time of its value. -/
def lwwWrite (value : V) (time : T) (r : V × Option T) : V × Option T :=
  if lwwWins r.2 time then (value, some time) else r

variable {time : T} {r : V × Option T}

theorem lwwWrite_of_wins {value : V} (h : lwwWins r.2 time = true) :
    lwwWrite value time r = (value, some time) := if_pos h

theorem lwwWrite_of_not_wins {value : V} (h : ¬ lwwWins r.2 time = true) :
    lwwWrite value time r = r := if_neg h

theorem lwwWrite_of_le {otherTime : T} (h : otherTime ≤ time) (value other : V) (r : V × Option T) :
    lwwWrite value time (lwwWrite other otherTime r) = lwwWrite value time r := by
  obtain ⟨v, stored⟩ := r
  cases stored with
  | none | some =>
    simp only [lwwWrite, lwwWins]
    grind

theorem lwwWrite_once (value : V) (time : T) (r : V × Option T) :
    lwwWrite value time (lwwWrite value time r) = lwwWrite value time r :=
  lwwWrite_of_le le_rfl value value r

theorem lwwWrite_between (value other : V) (time otherTime : T) (r : V × Option T) :
    lwwWrite value time (lwwWrite other otherTime (lwwWrite value time r)) =
      lwwWrite value time (lwwWrite other otherTime r) := by
  obtain h | h := le_total otherTime time
  · rw [lwwWrite_of_le h, lwwWrite_of_le h, lwwWrite_once]
  · rw [lwwWrite_of_le h]

theorem lwwWrite_of_lt {otherTime : T} (h : otherTime < time) (value other : V) (r : V × Option T) :
    lwwWrite other otherTime (lwwWrite value time r) = lwwWrite value time r := by
  obtain ⟨v, stored⟩ := r
  cases stored with
  | none | some =>
    simp only [lwwWrite, lwwWins]
    grind

/-- **Of many writes the newest one decides**, in whatever order and however often they come. -/
theorem foldl_lwwWrite {writes : List (V × T)} {w : V × T} (hmem : w ∈ writes)
    (hlast : ∀ x ∈ writes, x.2 < w.2 ∨ x = w) (r : V × Option T) :
    writes.foldl (fun r x => lwwWrite x.1 x.2 r) r = lwwWrite w.1 w.2 r := by
  have hbefore : ∀ front : List (V × T), (∀ x ∈ front, x.2 < w.2 ∨ x = w) → ∀ r,
      lwwWrite w.1 w.2 (front.foldl (fun r x => lwwWrite x.1 x.2 r) r) = lwwWrite w.1 w.2 r := by
    intro front hfront
    induction front with
    | nil => exact fun _ => rfl
    | cons x front ih =>
      obtain ⟨hx, hfront⟩ := forall_mem_cons.mp hfront
      have hle : x.2 ≤ w.2 := hx.elim le_of_lt fun heq => heq ▸ le_rfl
      exact fun r => (ih hfront _).trans (lwwWrite_of_le hle _ _ r)
  have hbehind : ∀ back : List (V × T), (∀ x ∈ back, x.2 < w.2 ∨ x = w) → ∀ r,
      back.foldl (fun r x => lwwWrite x.1 x.2 r) (lwwWrite w.1 w.2 r) = lwwWrite w.1 w.2 r := by
    intro back hback r
    induction back with
    | nil => rfl
    | cons x back ih =>
      obtain ⟨hx, hback⟩ := forall_mem_cons.mp hback
      have hvoid : lwwWrite x.1 x.2 (lwwWrite w.1 w.2 r) = lwwWrite w.1 w.2 r :=
        hx.elim (fun hlt => lwwWrite_of_lt hlt _ _ r) fun heq => heq ▸ lwwWrite_once _ _ r
      simp [hvoid, ih hback]
  obtain ⟨front, back, rfl⟩ := append_of_mem hmem
  rw [foldl_append, foldl_cons, hbehind back fun x hx => hlast x (mem_append_right _ (mem_cons_of_mem w hx)),
    hbefore front fun x hx => hlast x (mem_append_left _ hx)]

end Register
end Lib
