import Mathlib.Data.Nat.Log
import Nexora.Lib.Bytes

/-!
# Numerals in ASCII

Numbers written with digits in a base up to thirty-six, in a given width or in as many digits as
they need, and read back; and the split of a string at the first separator. A numeral that is read
may have a sign in front, leading zeros and capital letters, none of which are written.
-/

namespace Lib
open List Nat Option

def digitByte (d : Nat) : UInt8 := if d < 10 then UInt8.ofNat (48 + d) else UInt8.ofNat (87 + d)

def digitValue (base : Nat) (b : UInt8) : Option Nat :=
  let d :=
    if 48 ≤ b.toNat ∧ b.toNat ≤ 57 then some (b.toNat - 48)
    else if 97 ≤ b.toNat ∧ b.toNat ≤ 122 then some (b.toNat - 87)
    else if 65 ≤ b.toNat ∧ b.toNat ≤ 90 then some (b.toNat - 55)
    else none
  d.filter (· < base)

def fixedNumeral (base : Nat) : Nat → Nat → List UInt8
  | 0, _ => []
  | width + 1, n => fixedNumeral base width (n / base) ++ [digitByte (n % base)]

def numeral (base n : Nat) : List UInt8 := fixedNumeral base (Nat.log base n + 1) n

def numeralValue (base : Nat) (bytes : List UInt8) : Option Nat :=
  bytes.foldl (fun value b => value.bind fun n => (digitValue base b).map fun d => n * base + d) (some 0)

/-- Read a number below a limit: digits, at least one, with a plus sign in front or not. -/
def parseNumeral (base limit : Nat) (bytes : List UInt8) : Option Nat :=
  let digits := if bytes.head? = some 0x2B then bytes.tail else bytes
  if digits = [] then none else (numeralValue base digits).filter (· < limit)

/-- What stands before the first separator and what stands behind it. -/
def splitOnce (sep : UInt8) : List UInt8 → Option (List UInt8 × List UInt8)
  | [] => none
  | b :: bytes => if b = sep then some ([], bytes) else (splitOnce sep bytes).map fun parts => (b :: parts.1, parts.2)

variable {base : Nat}

theorem toNat_digitByte {d : Nat} (hd : d < 36) :
    (digitByte d).toNat = if d < 10 then 48 + d else 87 + d := by
  unfold digitByte
  split
  · rw [UInt8.toNat_ofNat']
    omega
  · rw [UInt8.toNat_ofNat']
    omega

theorem digitValue_digitByte (hbase : base ≤ 36) {d : Nat} (hd : d < base) :
    digitValue base (digitByte d) = some d := by
  have hbyte := toNat_digitByte (lt_of_lt_of_le hd hbase)
  unfold digitValue
  simp only [hbyte]
  by_cases hten : d < 10
  · simp only [if_pos hten]
    rw [if_pos (by omega), Nat.add_sub_cancel_left, filter_some, if_pos (decide_eq_true hd)]
  · simp only [if_neg hten]
    rw [if_neg (by omega), if_pos (by omega), Nat.add_sub_cancel_left, filter_some, if_pos (decide_eq_true hd)]

variable {width n : Nat} {b : UInt8}

theorem mem_fixedNumeral (hpos : 0 < base) (h : b ∈ fixedNumeral base width n) :
    ∃ d < base, b = digitByte d := by
  induction width generalizing n with
  | zero => exact absurd h not_mem_nil
  | succ width ih =>
    rcases mem_append.mp h with h | h
    · exact ih h
    · exact ⟨n % base, mod_lt _ hpos, mem_singleton.mp h⟩

theorem length_fixedNumeral (base width n : Nat) : (fixedNumeral base width n).length = width := by
  induction width generalizing n with
  | zero => rfl
  | succ width ih => rw [fixedNumeral, length_append, ih, length_singleton]

section
variable (hpos : 0 < base) (hbase : base ≤ 36)
include hpos hbase

theorem not_mem_fixedNumeral (hb : b.toNat < 48 ∨ 57 < b.toNat ∧ b.toNat < 97)
    (width n : Nat) : b ∉ fixedNumeral base width n := by
  intro hmem
  obtain ⟨d, hd, rfl⟩ := mem_fixedNumeral hpos hmem
  rw [toNat_digitByte (lt_of_lt_of_le hd hbase)] at hb
  split at hb <;> omega

theorem numeralValue_fixedNumeral (width n : Nat) :
    numeralValue base (fixedNumeral base width n) = some (n % base ^ width) := by
  induction width generalizing n with
  | zero => simp [fixedNumeral, numeralValue, mod_one]
  | succ width ih =>
    have hlast : numeralValue base (fixedNumeral base (width + 1) n) =
        (numeralValue base (fixedNumeral base width (n / base))).bind fun m =>
          (digitValue base (digitByte (n % base))).map fun d => m * base + d := by
      rw [numeralValue, fixedNumeral, foldl_append]
      rfl
    rw [hlast, ih, digitValue_digitByte hbase (mod_lt _ hpos), pow_succ', mod_mul, bind_some,
      map_some]
    congr 1
    ring

theorem fixedNumeral_lt_iff {m : Nat} (hm : m < base ^ width) (hn : n < base ^ width) :
    fixedNumeral base width m < fixedNumeral base width n ↔ m < n := by
  induction width generalizing m n with
  | zero => simp_all [fixedNumeral]
  | succ width ih =>
    have hm' : m / base < base ^ width := Nat.div_lt_of_lt_mul (by rwa [← Nat.pow_succ'])
    have hn' : n / base < base ^ width := Nat.div_lt_of_lt_mul (by rwa [← Nat.pow_succ'])
    have hdigit : [digitByte (m % base)] < [digitByte (n % base)] ↔ m % base < n % base := by
      have hlt := mod_lt m hpos
      have hlt' := mod_lt n hpos
      simp only [cons_lt_cons_iff, UInt8.lt_iff_toNat_lt, toNat_digitByte (lt_of_lt_of_le hlt hbase),
        toNat_digitByte (lt_of_lt_of_le hlt' hbase), not_lt_nil, and_false, or_false]
      split <;> split <;> omega
    have hinj : fixedNumeral base width (m / base) = fixedNumeral base width (n / base) ↔ m / base = n / base := by
      refine ⟨fun h => ?_, congrArg _⟩
      have hvalue := congrArg (numeralValue base) h
      rwa [numeralValue_fixedNumeral hpos hbase, numeralValue_fixedNumeral hpos hbase, mod_eq_of_lt hm', mod_eq_of_lt hn',
        some.injEq] at hvalue
    rw [fixedNumeral, fixedNumeral, append_lt_append_iff (by simp [length_fixedNumeral]), ih hm' hn', hdigit, hinj]
    have hdiv := div_add_mod m base
    have hdiv' := div_add_mod n base
    constructor
    · rintro (h | ⟨h, h'⟩)
      · exact lt_of_div_lt_div h
      · rw [← hdiv, ← hdiv', h]
        omega
    · intro h
      rcases Nat.lt_or_eq_of_le (Nat.div_le_div_right (c := base) h.le) with hlt | heq
      · exact .inl hlt
      · refine .inr ⟨heq, ?_⟩
        rw [← hdiv, ← hdiv', heq] at h
        omega

end

theorem numeralValue_eq_none {bytes : List UInt8} (hb : digitValue base b = none) (h : b ∈ bytes) :
    numeralValue base bytes = none := by
  obtain ⟨front, back, rfl⟩ := append_of_mem h
  rw [numeralValue, foldl_append, foldl_cons, hb]
  generalize (front.foldl _ _ : Option Nat) = value
  have hnone : (value.bind fun n => (none : Option Nat).map fun d => n * base + d) = none := by cases value <;> rfl
  rw [hnone]
  induction back with
  | nil => rfl
  | cons c back ih => exact ih (mem_append_right front mem_cons_self)

theorem parseNumeral_fixedNumeral (hpos : 0 < base) (hbase : base ≤ 36) {limit : Nat}
    (hwidth : 0 < width) (hn : n < base ^ width) (hlimit : n < limit) :
    parseNumeral base limit (fixedNumeral base width n) = some n := by
  have hplus : (fixedNumeral base width n).head? ≠ some 0x2B := by
    intro hhead
    exact not_mem_fixedNumeral hpos hbase (.inl (by decide)) width n (mem_of_head? hhead)
  have hne : fixedNumeral base width n ≠ [] := by
    apply ne_nil_of_length_pos
    rwa [length_fixedNumeral]
  unfold parseNumeral
  simp only [if_neg hplus]
  rw [if_neg hne, numeralValue_fixedNumeral hpos hbase, mod_eq_of_lt hn, filter_some,
    if_pos (decide_eq_true hlimit)]

theorem parseNumeral_numeral (hbase : 1 < base) (hle : base ≤ 36) {limit : Nat}
    (hlimit : n < limit) :
    parseNumeral base limit (numeral base n) = some n :=
  parseNumeral_fixedNumeral (lt_trans zero_lt_one hbase) hle (succ_pos _) (lt_pow_succ_log_self hbase n) hlimit

theorem splitOnce_append {sep : UInt8} {front : List UInt8} (h : sep ∉ front) (back : List UInt8) :
    splitOnce sep (front ++ sep :: back) = some (front, back) := by
  induction front with
  | nil => exact if_pos rfl
  | cons b front ih =>
    obtain ⟨hb, hfront⟩ := not_or.mp (mt mem_cons.mpr h)
    rw [cons_append, splitOnce, if_neg (Ne.symm hb), ih hfront]
    rfl

end Lib
