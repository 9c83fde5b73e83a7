import Nexora.Lib.Json
import Nexora.Lib.Numeral
import Nexora.Lib.Run

/-!
# JSON documents as texts

The compact text of a document, in UTF-8 and with the escapes that JSON asks for. A reader that
counts what is open, a string included, knows where a string, an array or an object ends without
looking behind it: texts of such documents can be written one after the other and be told apart.
-/

namespace Lib
open List

/-! ### What is open -/

/-- The bytes that open or close something, or that change what the next byte means. -/
def IsStructural (b : UInt8) : Prop :=
  b = 0x22 ∨ b = 0x5B ∨ b = 0x5C ∨ b = 0x5D ∨ b = 0x7B ∨ b = 0x7D

instance (b : UInt8) : Decidable (IsStructural b) := by unfold IsStructural; infer_instance

/-- The texts of doubles, in which nothing is opened or closed. -/
structure FloatText where
  text : F64 → List UInt8
  plain : ∀ x, ∀ b ∈ text x, ¬ IsStructural b

namespace Json

def utf8 (s : String) : List UInt8 := s.toList.flatMap String.utf8EncodeChar

/-- Quotes, backslashes and control characters are escaped. -/
def escapeByte (b : UInt8) : List UInt8 :=
  if b = 0x22 then [0x5C, 0x22]
  else if b = 0x5C then [0x5C, 0x5C]
  else if b = 0x08 then [0x5C, 0x62]
  else if b = 0x09 then [0x5C, 0x74]
  else if b = 0x0A then [0x5C, 0x6E]
  else if b = 0x0C then [0x5C, 0x66]
  else if b = 0x0D then [0x5C, 0x72]
  else if b < 0x20 then [0x5C, 0x75, 0x30, 0x30] ++ fixedNumeral 16 2 b.toNat
  else [b]

def quoted (s : String) : List UInt8 := 0x22 :: ((utf8 s).flatMap escapeByte ++ [0x22])

def intText (n : Int) : List UInt8 :=
  if n < 0 then 0x2D :: numeral 10 n.natAbs else numeral 10 n.natAbs

mutual

def text (floats : FloatText) : Json → List UInt8
  | .null => [0x6E, 0x75, 0x6C, 0x6C]
  | .bool true => [0x74, 0x72, 0x75, 0x65]
  | .bool false => [0x66, 0x61, 0x6C, 0x73, 0x65]
  | .int n => intText n
  | .float x => floats.text x
  | .str s => quoted s
  | .arr items => 0x5B :: (itemsText floats items ++ [0x5D])
  | .obj fields => 0x7B :: (fieldsText floats fields ++ [0x7D])

def itemsText (floats : FloatText) : List Json → List UInt8
  | [] => []
  | [j] => j.text floats
  | j :: rest => j.text floats ++ 0x2C :: itemsText floats rest

def fieldsText (floats : FloatText) : List (String × Json) → List UInt8
  | [] => []
  | [(k, j)] => quoted k ++ 0x3A :: j.text floats
  | (k, j) :: rest => quoted k ++ 0x3A :: (j.text floats ++ 0x2C :: fieldsText floats rest)

end

/-- A string, an array or an object. -/
def IsEnclosed : Json → Prop
  | .str _ | .arr _ | .obj _ => True
  | _ => False

/-- Outside of strings, inside of one, or behind a backslash there. -/
inductive Mode where
  | plain
  | quoted
  | escaped
deriving DecidableEq

/-- How many strings, arrays and objects are open. -/
structure Nesting where
  depth : Nat
  mode : Mode
deriving DecidableEq

def Nesting.next (n : Nesting) (b : UInt8) : Nesting :=
  match n.mode with
  | .plain =>
    if b = 0x22 then ⟨n.depth + 1, .quoted⟩
    else if b = 0x5B ∨ b = 0x7B then ⟨n.depth + 1, .plain⟩
    else if b = 0x5D ∨ b = 0x7D then ⟨n.depth - 1, .plain⟩
    else n
  | .quoted => if b = 0x22 then ⟨n.depth - 1, .plain⟩ else if b = 0x5C then ⟨n.depth, .escaped⟩ else n
  | .escaped => ⟨n.depth, .quoted⟩

/-- The bytes leave open what they find open, and close nothing of it on the way. -/
structure Balanced (n : Nesting) (bytes : List UInt8) : Prop where
  run : Lib.run Nesting.next n bytes = n
  along : Along Nesting.next (fun n' b => n.depth ≤ (n'.next b).depth) n bytes

namespace Balanced
variable {n : Nesting} {a b : List UInt8}

theorem nil (n : Nesting) : Balanced n [] := ⟨rfl, trivial⟩

theorem append (ha : Balanced n a) (hb : Balanced n b) : Balanced n (a ++ b) where
  run := by rw [run_append, ha.run, hb.run]
  along := along_append.mpr ⟨ha.along, by rw [ha.run]; exact hb.along⟩

theorem of_next_eq (h : ∀ byte ∈ a, n.next byte = n) : Balanced n a := by
  induction a with
  | nil => exact nil n
  | cons byte a ih =>
    obtain ⟨hbyte, hrest⟩ := forall_mem_cons.mp h
    have htail := ih hrest
    refine ⟨?_, (congrArg Nesting.depth hbyte).ge, ?_⟩
    · rw [run_cons, hbyte]
      exact htail.run
    · rw [hbyte]
      exact htail.along

theorem flatMap {α : Type} {l : List α} {f : α → List UInt8} (h : ∀ x ∈ l, Balanced n (f x)) :
    Balanced n (l.flatMap f) := by
  induction l with
  | nil => exact nil n
  | cons x l ih =>
    obtain ⟨hx, hrest⟩ := forall_mem_cons.mp h
    exact hx.append (ih hrest)

end Balanced
variable {floats : FloatText} {d : Nat}

theorem next_of_not_structural {b : UInt8} (h : ¬ IsStructural b) :
    (⟨d, .plain⟩ : Nesting).next b = ⟨d, .plain⟩ := by
  simp only [IsStructural, not_or] at h
  obtain ⟨hquote, hopen, -, hclose, hopen', hclose'⟩ := h
  simp [Nesting.next, hquote, hopen, hopen', hclose, hclose']

variable {bytes : List UInt8}

theorem balanced_plain (h : ∀ b ∈ bytes, ¬ IsStructural b) : Balanced ⟨d, .plain⟩ bytes :=
  .of_next_eq fun b hb => next_of_not_structural (h b hb)

theorem balanced_of_all (h : (bytes.all fun b => !decide (IsStructural b)) = true) :
    Balanced ⟨d, .plain⟩ bytes :=
  balanced_plain fun b hb => by simpa using all_eq_true.mp h b hb

theorem not_structural_digitByte : ∀ digit < 16, ¬ IsStructural (digitByte digit) := by decide

theorem not_structural_of_mem_numeral {n : Nat} {b : UInt8} (h : b ∈ numeral 10 n) :
    ¬ IsStructural b := by
  obtain ⟨digit, hdigit, rfl⟩ := mem_fixedNumeral (by decide) h
  exact not_structural_digitByte digit (by omega)

theorem balanced_intText (n : Int) : Balanced ⟨d, .plain⟩ (intText n) := by
  apply balanced_plain
  intro b hb
  unfold intText at hb
  split at hb
  · obtain rfl | hb := mem_cons.mp hb
    · decide
    · exact not_structural_of_mem_numeral hb
  · exact not_structural_of_mem_numeral hb

theorem balanced_escapeByte (b : UInt8) : Balanced ⟨d, .quoted⟩ (escapeByte b) := by
  have hpair : ∀ c : UInt8, Balanced ⟨d, .quoted⟩ [0x5C, c] :=
    fun c => ⟨rfl, le_refl d, le_refl d, trivial⟩
  have hsame : ∀ c : UInt8,
      c ≠ 0x22 → c ≠ 0x5C → (⟨d, .quoted⟩ : Nesting).next c = ⟨d, .quoted⟩ := by
    intro c hquote hslash
    simp [Nesting.next, hquote, hslash]
  unfold escapeByte
  by_cases hquote : b = 0x22
  · rw [if_pos hquote]
    exact hpair _
  rw [if_neg hquote]
  by_cases hslash : b = 0x5C
  · rw [if_pos hslash]
    exact hpair _
  rw [if_neg hslash]
  split_ifs
  · exact hpair _
  · exact hpair _
  · exact hpair _
  · exact hpair _
  · exact hpair _
  · have hdigits : Balanced ⟨d, .quoted⟩ ([0x30, 0x30] ++ fixedNumeral 16 2 b.toNat) := by
      apply Balanced.of_next_eq
      intro c hc
      obtain hzero | hdigit := mem_append.mp hc
      · obtain rfl : c = 0x30 := by simpa using hzero
        exact hsame _ (by decide) (by decide)
      · obtain ⟨digit, hlt, rfl⟩ := mem_fixedNumeral (by decide) hdigit
        have hplain := not_structural_digitByte digit hlt
        exact hsame _ (fun heq => hplain (.inl heq)) fun heq => hplain (.inr (.inr (.inl heq)))
    exact (hpair 0x75).append hdigits
  · exact Balanced.of_next_eq fun c hc => by
      rw [mem_singleton.mp hc]
      exact hsame b hquote hslash

/-- What stands between an opening byte and the closing one. -/
structure Encloses (bytes : List UInt8) : Prop where
  shape : ∃ front last, bytes = front ++ [last] ∧ front ≠ [] ∧
    ∀ d, Along Nesting.next (fun n b => d < (n.next b).depth) ⟨d, .plain⟩ front
  run : ∀ d, Lib.run Nesting.next ⟨d, .plain⟩ bytes = ⟨d, .plain⟩

theorem encloses_of_balanced {first last : UInt8} {mode : Mode} {body : List UInt8}
    (hfirst : ∀ d, (⟨d, .plain⟩ : Nesting).next first = ⟨d + 1, mode⟩)
    (hbody : ∀ d, Balanced ⟨d + 1, mode⟩ body)
    (hlast : ∀ d, (⟨d + 1, mode⟩ : Nesting).next last = ⟨d, .plain⟩) :
    Encloses (first :: (body ++ [last])) where
  shape := by
    refine ⟨first :: body, last, rfl, cons_ne_nil _ _, fun d => ⟨?_, ?_⟩⟩
    · exact Nat.lt_of_lt_of_eq (Nat.lt_succ_self d) (congrArg Nesting.depth (hfirst d)).symm
    · rw [hfirst]
      exact (hbody d).along
  run := by
    intro d
    rw [run_cons, hfirst, run_append, (hbody d).run]
    exact hlast d

theorem Encloses.balanced (h : Encloses bytes) : Balanced ⟨d, .plain⟩ bytes where
  run := h.run d
  along := by
    have hrun := h.run d
    obtain ⟨front, last, rfl, -, hfront⟩ := h.shape
    rw [run_append] at hrun
    refine along_append.mpr ⟨along_mono (fun _ _ hlt => le_of_lt hlt) (hfront d), ?_, trivial⟩
    exact (congrArg Nesting.depth hrun).ge

theorem encloses_quoted (s : String) : Encloses (quoted s) :=
  encloses_of_balanced (fun _ => rfl) (fun _ => .flatMap fun b _ => balanced_escapeByte b) fun _ => rfl

theorem balanced_comma : Balanced ⟨d, .plain⟩ [0x2C] := balanced_of_all (by decide)

theorem balanced_colon : Balanced ⟨d, .plain⟩ [0x3A] := balanced_of_all (by decide)

mutual

theorem balanced_text (floats : FloatText) (d : Nat) :
    ∀ j : Json, Balanced ⟨d, .plain⟩ (j.text floats)
  | .null | .bool true | .bool false => @balanced_of_all d _ (by simp only [text]; decide)
  | .int n => balanced_intText n
  | .float x => balanced_plain (floats.plain x)
  | .str s => (encloses_quoted s).balanced
  | .arr items =>
    (encloses_of_balanced (fun _ => rfl) (fun d => balanced_itemsText floats (d + 1) items) fun _ => rfl).balanced
  | .obj fields =>
    (encloses_of_balanced (fun _ => rfl) (fun d => balanced_fieldsText floats (d + 1) fields) fun _ => rfl).balanced

theorem balanced_itemsText (floats : FloatText) (d : Nat) :
    ∀ items : List Json, Balanced ⟨d, .plain⟩ (itemsText floats items)
  | [] => .nil _
  | [j] => balanced_text floats d j
  | j :: next :: rest =>
    (balanced_text floats d j).append (balanced_comma.append (balanced_itemsText floats d (next :: rest)))

theorem balanced_fieldsText (floats : FloatText) (d : Nat) :
    ∀ fields : List (String × Json), Balanced ⟨d, .plain⟩ (fieldsText floats fields)
  | [] => .nil _
  | [(k, j)] => (encloses_quoted k).balanced.append (balanced_colon.append (balanced_text floats d j))
  | (k, j) :: next :: rest =>
    (encloses_quoted k).balanced.append (balanced_colon.append ((balanced_text floats d j).append
      (balanced_comma.append (balanced_fieldsText floats d (next :: rest)))))

end

theorem encloses_text {j : Json} (h : j.IsEnclosed) : Encloses (j.text floats) := by
  cases j with
  | str s => exact encloses_quoted s
  | arr items => exact encloses_of_balanced (fun _ => rfl) (fun d => balanced_itemsText floats (d + 1) items) fun _ => rfl
  | obj fields => exact encloses_of_balanced (fun _ => rfl) (fun d => balanced_fieldsText floats (d + 1) fields) fun _ => rfl
  | null | bool | int | float => cases h

theorem Encloses.eq_of_isPrefix {a b : List UInt8} (ha : Encloses a) (hb : Encloses b)
    (h : a <+: b) : a = b := by
  obtain ⟨front, last, rfl, -, hfront⟩ := hb.shape
  obtain heq | hprefix := prefix_concat_iff.mp h
  · exact heq
  · obtain ⟨rest, rfl⟩ := hprefix
    have hopen := (along_append.mp (hfront 0)).1
    have hclosed := ha.run 0
    obtain ⟨front', last', rfl, -, -⟩ := ha.shape
    have hlast := (along_append.mp hopen).2.1
    rw [run_append] at hclosed
    exact absurd (congrArg Nesting.depth hclosed) (Nat.ne_of_gt hlast)

/-- **Where a text ends** does not depend on what stands behind it. -/
theorem text_append_inj {j k : Json} (hj : j.IsEnclosed) (hk : k.IsEnclosed) {s t : List UInt8}
    (h : j.text floats ++ s = k.text floats ++ t) : j.text floats = k.text floats ∧ s = t := by
  have heq : j.text floats = k.text floats := by
    obtain hprefix | hprefix := prefix_or_prefix_of_prefix (prefix_append _ s) (h ▸ prefix_append _ t)
    · exact (encloses_text hj).eq_of_isPrefix (encloses_text hk) hprefix
    · exact ((encloses_text hk).eq_of_isPrefix (encloses_text hj) hprefix).symm
  refine ⟨heq, ?_⟩
  rw [heq] at h
  exact append_cancel_left h

end Json
end Lib
