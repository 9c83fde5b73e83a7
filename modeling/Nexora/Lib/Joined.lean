import Mathlib.Data.List.Basic
import Mathlib.Data.List.Forall2
import Mathlib.Data.Set.Basic

/-!
# Texts that can be read back

When texts are written one after the other, what was written can be read back if one can tell where
a text ends: at one of some stops, though a quoted text may have stops inside. `ReadsAs` is the rule
for two texts, and the texts that are made of readable ones by fixed pieces, as lists between
brackets or joined by a separator can be read back as well.
-/

namespace Lib
open List
variable {α A : Type*} (stops : Set α)

/-- Nothing follows, or a stop does. -/
def AtStop (rest : List α) : Prop := ∀ a ∈ rest.head?, a ∈ stops

/-- Wherever the two texts, followed by a stop, begin the same text, they end at the same place, and
what they stand for is related. -/
def ReadsAs (a b : List α) (P : Prop) : Prop :=
  ∀ s t, AtStop stops s → AtStop stops t → a ++ s = b ++ t → P ∧ s = t

variable {stops} {a b c d : List α} {P Q : Prop}

theorem atStop_nil : AtStop stops ([] : List α) := fun _ h => nomatch h

theorem atStop_cons {x : α} {s : List α} : AtStop stops (x :: s) ↔ x ∈ stops := by
  simp [AtStop]

theorem ReadsAs.mono (h : ReadsAs stops a b P) (hPQ : P → Q) : ReadsAs stops a b Q :=
  fun s t hs ht heq => (h s t hs ht heq).imp_left hPQ

theorem ReadsAs.texts (h : ReadsAs stops a b P) : ReadsAs stops a b (a = b) := by
  intro s t hs ht heq
  obtain ⟨-, rfl⟩ := h s t hs ht heq
  exact ⟨append_cancel_right heq, rfl⟩

/-- The whole texts. -/
theorem ReadsAs.of_eq (h : ReadsAs stops a b P) (heq : a = b) : P :=
  (h [] [] atStop_nil atStop_nil (by rw [heq])).1

theorem readsAs_refl (a : List α) : ReadsAs stops a a True :=
  fun _ _ _ _ heq => ⟨trivial, append_cancel_left heq⟩

theorem ReadsAs.after (h : ReadsAs stops a b P) (piece : List α) :
    ReadsAs stops (piece ++ a) (piece ++ b) P := by
  intro s t hs ht heq
  rw [append_assoc, append_assoc] at heq
  exact h s t hs ht (append_cancel_left heq)

theorem ReadsAs.append (h : ReadsAs stops a b P) (hnext : ReadsAs stops c d Q)
    (hc : ∀ s, AtStop stops s → AtStop stops (c ++ s))
    (hd : ∀ s, AtStop stops s → AtStop stops (d ++ s)) :
    ReadsAs stops (a ++ c) (b ++ d) (P ∧ Q) := by
  intro s t hs ht heq
  rw [append_assoc, append_assoc] at heq
  obtain ⟨hP, hrest⟩ := h _ _ (hc s hs) (hd t ht) heq
  obtain ⟨hQ, hst⟩ := hnext s t hs ht hrest
  exact ⟨⟨hP, hQ⟩, hst⟩

/-- A fixed piece that begins with a stop stands between two texts. -/
theorem ReadsAs.between (h : ReadsAs stops a b P) {x : α} (hx : x ∈ stops) (piece : List α)
    (hnext : ReadsAs stops c d Q) :
    ReadsAs stops (a ++ x :: piece ++ c) (b ++ x :: piece ++ d) (P ∧ Q) := by
  rw [append_assoc, append_assoc]
  exact h.append (hnext.after (x :: piece)) (fun _ _ => atStop_cons.mpr hx)
    fun _ _ => atStop_cons.mpr hx

/-- A fixed piece that begins with a stop ends the text. -/
theorem ReadsAs.before (h : ReadsAs stops a b P) {x : α} (hx : x ∈ stops) (piece : List α) :
    ReadsAs stops (a ++ x :: piece) (b ++ x :: piece) P :=
  (h.append (readsAs_refl (x :: piece)) (fun _ _ => atStop_cons.mpr hx)
    fun _ _ => atStop_cons.mpr hx).mono And.left

/-- Texts that begin differently. -/
theorem readsAs_of_ne (head head' : List α) (hlength : head.length = head'.length)
    (hne : head ≠ head') (a b : List α) (P : Prop) :
    ReadsAs stops (head ++ a) (head' ++ b) P := by
  intro s t _ _ heq
  rw [append_assoc, append_assoc] at heq
  exact absurd (append_inj_left heq hlength) hne

/-! ### Lists of texts -/

/-- Texts with a separator before each, and then an end. -/
def endedBy (sep close : List α) : List (List α) → List α
  | [] => close
  | a :: l => sep ++ a ++ endedBy sep close l

/-- Texts with a separator between them, and then an end. -/
def listedTo (sep close : List α) : List (List α) → List α
  | [] => close
  | a :: l => a ++ endedBy sep close l

variable {f : A → List α} {R : A → A → Prop} {sep close : α} {piece : List α}

theorem atStop_endedBy (hsep : sep ∈ stops) (hclose : close ∈ stops) (l : List (List α))
    (s : List α) : AtStop stops (endedBy (sep :: piece) [close] l ++ s) := by
  cases l with
  | nil => exact atStop_cons.mpr hclose
  | cons a l => exact atStop_cons.mpr hsep

theorem readsAs_endedBy (hsep : sep ∈ stops) (hclose : close ∈ stops) (hne : sep ≠ close)
    {l m : List A} (h : ∀ a ∈ l, ∀ b ∈ m, ReadsAs stops (f a) (f b) (R a b)) :
    ReadsAs stops (endedBy (sep :: piece) [close] (l.map f))
      (endedBy (sep :: piece) [close] (m.map f)) (Forall₂ R l m) := by
  induction l generalizing m with
  | nil =>
    cases m with
    | nil => exact (readsAs_refl _).mono fun _ => .nil
    | cons b m => exact fun s t _ _ heq => absurd (head_eq_of_cons_eq heq).symm hne
  | cons a l ih =>
    cases m with
    | nil => exact fun s t _ _ heq => absurd (head_eq_of_cons_eq heq) hne
    | cons b m =>
      have hrest := ih fun a ha b hb => h a (mem_cons_of_mem _ ha) b (mem_cons_of_mem _ hb)
      have hfirst := (h a mem_cons_self b mem_cons_self).after (sep :: piece)
      exact (hfirst.append hrest (fun s _ => atStop_endedBy hsep hclose _ s)
        fun s _ => atStop_endedBy hsep hclose _ s).mono fun hboth => .cons hboth.1 hboth.2

/-- A list can be read back whose texts can, unless one begins with a stop. -/
theorem readsAs_listedTo (hsep : sep ∈ stops) (hclose : close ∈ stops) (hne : sep ≠ close)
    {l m : List A} (h : ∀ a ∈ l, ∀ b ∈ m, ReadsAs stops (f a) (f b) (R a b))
    (hstart : ∀ a s, ¬ AtStop stops (f a ++ s)) :
    ReadsAs stops (listedTo (sep :: piece) [close] (l.map f))
      (listedTo (sep :: piece) [close] (m.map f)) (Forall₂ R l m) := by
  have hclosed : ∀ s, AtStop stops ([close] ++ s) := fun s => atStop_cons.mpr hclose
  cases l with
  | nil =>
    cases m with
    | nil => exact (readsAs_refl _).mono fun _ => .nil
    | cons b m =>
      intro s t _ _ heq
      rw [map_cons, listedTo, append_assoc] at heq
      exact absurd (heq ▸ hclosed s) (hstart b _)
  | cons a l =>
    cases m with
    | nil =>
      intro s t _ _ heq
      rw [map_cons, listedTo, append_assoc] at heq
      exact absurd (heq ▸ hclosed t) (hstart a _)
    | cons b m =>
      have hrest := @readsAs_endedBy _ _ _ f R sep close piece hsep hclose hne l m
        fun a ha b hb => h a (mem_cons_of_mem _ ha) b (mem_cons_of_mem _ hb)
      exact ((h a mem_cons_self b mem_cons_self).append hrest
        (fun s _ => atStop_endedBy hsep hclose _ s)
        fun s _ => atStop_endedBy hsep hclose _ s).mono fun hboth => .cons hboth.1 hboth.2

theorem intercalate_cons (a : List α) (l : List (List α)) :
    [sep].intercalate (a :: l) = a ++ endedBy [sep] [] l := by
  induction l generalizing a with
  | nil => simp [endedBy]
  | cons b l ih => simp [endedBy, ← ih b]

theorem forall₂_of_endedBy_eq (hsep : sep ∈ stops) {l m : List A}
    (h : ∀ a ∈ l, ∀ b ∈ m, ReadsAs stops (f a) (f b) (R a b))
    (heq : endedBy [sep] [] (l.map f) = endedBy [sep] [] (m.map f)) : Forall₂ R l m := by
  have hstop : ∀ l : List (List α), AtStop stops (endedBy [sep] [] l) := by
    intro l
    cases l with
    | nil => exact atStop_nil
    | cons a l => exact atStop_cons.mpr hsep
  induction l generalizing m with
  | nil =>
    cases m with
    | nil => exact .nil
    | cons b m => cases heq
  | cons a l ih =>
    cases m with
    | nil => cases heq
    | cons b m =>
      obtain ⟨hfirst, hrest⟩ := h a mem_cons_self b mem_cons_self _ _ (hstop _) (hstop _)
        (cons_inj_right sep |>.mp heq)
      exact .cons hfirst
        (ih (fun a ha b hb => h a (mem_cons_of_mem _ ha) b (mem_cons_of_mem _ hb)) hrest)

/-- **What was joined can be told apart**, however many texts there are. -/
theorem forall₂_of_intercalate_eq (hsep : sep ∈ stops) {l m : List A}
    (h : ∀ a ∈ l, ∀ b ∈ m, ReadsAs stops (f a) (f b) (R a b)) (hne : ∀ a, f a ≠ [])
    (heq : [sep].intercalate (l.map f) = [sep].intercalate (m.map f)) : Forall₂ R l m := by
  cases l with
  | nil =>
    cases m with
    | nil => exact .nil
    | cons b m =>
      rw [map_cons, intercalate_cons] at heq
      exact absurd (append_eq_nil_iff.mp heq.symm).1 (hne b)
  | cons a l =>
    cases m with
    | nil =>
      rw [map_cons, intercalate_cons] at heq
      exact absurd (append_eq_nil_iff.mp heq).1 (hne a)
    | cons b m =>
      rw [map_cons, map_cons, intercalate_cons, intercalate_cons] at heq
      exact forall₂_of_endedBy_eq hsep h (congrArg (cons sep) heq)

end Lib
