import Mathlib.Data.List.Basic
import Mathlib.Data.List.Induction
import Mathlib.Data.List.Lex
import Mathlib.Tactic.Ring

/-!
# Fixed-width numbers and checksums in byte strings

Words of 64 bits, big-endian numbers of a given width, reading an exact number of bytes, the
lexicographic order of byte strings, which is the order of the numbers where the widths agree, and
CRC-32 (reflected polynomial `0xEDB88320`) computed bit by bit.
-/

namespace Lib
open List UInt8 Nat

/-! ### Words of 64 bits -/

instance neZero_word : NeZero (2 ^ 64) := ⟨by decide⟩

instance neZero_halfWord : NeZero (2 ^ 32) := ⟨by decide⟩

theorem maxWord_lt : 2 ^ 64 - 1 < 2 ^ 64 := by decide

/-! ### Numbers as bytes -/

def toBe : Nat → Nat → List UInt8
  | 0, _ => []
  | width + 1, n => toBe width (n / 256) ++ [ofNat n]

def ofBe (bytes : List UInt8) : Nat := bytes.foldl (fun n b => n * 256 + b.toNat) 0

@[simp] theorem length_toBe (width n : Nat) : (toBe width n).length = width := by
  induction width generalizing n with
  | zero => rfl
  | succ width ih => simp [toBe, ih]

theorem ofBe_toBe (width n : Nat) : ofBe (toBe width n) = n % 256 ^ width := by
  induction width generalizing n with
  | zero => simp [toBe, ofBe, mod_one]
  | succ width ih =>
    have hsplit : ofBe (toBe (width + 1) n) = ofBe (toBe width (n / 256)) * 256 + (ofNat n).toNat := by
      simp [toBe, ofBe]
    have hdigit : (ofNat n).toNat = n % 256 := toNat_ofNat'
    rw [hsplit, ih, hdigit, pow_succ', mod_mul]
    ring

variable {n : Nat} {β : Type} {field bytes : List β}

theorem toBe_injOn {width m : Nat} (hm : m < 256 ^ width) (hn : n < 256 ^ width)
    (h : toBe width m = toBe width n) : m = n := by
  have hof := congrArg ofBe h
  rwa [ofBe_toBe, ofBe_toBe, mod_eq_of_lt hm, mod_eq_of_lt hn] at hof

theorem ofBe_concat (bytes : List UInt8) (b : UInt8) :
    ofBe (bytes ++ [b]) = ofBe bytes * 256 + b.toNat := by
  rw [ofBe, foldl_append]
  rfl

theorem ofBe_lt (bytes : List UInt8) : ofBe bytes < 256 ^ bytes.length := by
  induction bytes using reverseRecOn with
  | nil => exact one_pos
  | append_singleton bytes b ih =>
    have hb := b.toNat_lt
    rw [ofBe_concat, length_append, length_singleton, pow_succ]
    omega

theorem toBe_ofBe {width : Nat} {bytes : List UInt8} (h : bytes.length = width) :
    toBe width (ofBe bytes) = bytes := by
  induction bytes using reverseRecOn generalizing width with
  | nil => exact h ▸ rfl
  | append_singleton bytes b ih =>
    have hb := b.toNat_lt
    rw [length_append, length_singleton] at h
    subst h
    have hdiv : (ofBe bytes * 256 + b.toNat) / 256 = ofBe bytes := by omega
    have hlast : ofNat (ofBe bytes * 256 + b.toNat) = b := by
      apply UInt8.toNat_inj.mp
      rw [UInt8.toNat_ofNat']
      omega
    rw [ofBe_concat, toBe, hdiv, hlast, ih rfl]

def readExact {β : Type} (n : Nat) (bytes : List β) : Option (List β × List β) :=
  if n ≤ bytes.length then some (bytes.take n, bytes.drop n) else none

theorem readExact_append (field tail : List β) :
    readExact field.length (field ++ tail) = some (field, tail) := by
  simp [readExact]

theorem readExact_append_of_length (h : field.length = n) (tail : List β) :
    readExact n (field ++ tail) = some (field, tail) := h ▸ readExact_append field tail

theorem readExact_eq_none_iff : readExact n bytes = none ↔ bytes.length < n := by
  rw [readExact]
  split <;> simp <;> omega

theorem readExact_eq_some {rest : List β} (h : readExact n bytes = some (field, rest)) :
    bytes = field ++ rest ∧ field.length = n := by
  rw [readExact] at h
  split at h
  · next hle =>
    cases h
    exact ⟨(take_append_drop n bytes).symm, length_take_of_le hle⟩
  · cases h

/-! ### The order of byte strings -/

instance instLinearOrderUInt8 : LinearOrder UInt8 where
  le_refl _ := UInt8.le_refl _
  le_trans _ _ _ := UInt8.le_trans
  lt_iff_le_not_ge a b := by
    rw [lt_iff_toNat_lt, le_iff_toNat_le, le_iff_toNat_le]
    omega
  le_antisymm _ _ := UInt8.le_antisymm
  le_total a b := UInt8.le_total a b
  toDecidableLE := inferInstance

section Order
variable {A : Type*} [LinearOrder A]

theorem append_lt_append_iff {a b s t : List A} (h : a.length = b.length) :
    a ++ s < b ++ t ↔ a < b ∨ a = b ∧ s < t := by
  induction a generalizing b with
  | nil =>
    obtain rfl := length_eq_zero_iff.mp h.symm
    simp
  | cons first a ih =>
    cases b with
    | nil => simp at h
    | cons first' b =>
      simp only [cons_append, cons_lt_cons_iff, ih (succ.inj h), cons.injEq]
      tauto

theorem le_of_isPrefix {p k : List A} (h : p <+: k) : p ≤ k := by
  obtain ⟨rest, rfl⟩ := h
  apply not_lt.mp
  induction p with
  | nil => exact not_lt_nil _
  | cons first p ih =>
    rw [cons_append, cons_lt_cons_iff]
    rintro (hlt | ⟨-, hlt⟩)
    · exact lt_irrefl first hlt
    · exact ih hlt

theorem isPrefix_of_le_of_le {p a k b : List A} (ha : p <+: a) (hb : p <+: b) (hak : a ≤ k)
    (hkb : k ≤ b) : p <+: k := by
  induction p generalizing a k b with
  | nil => exact nil_prefix
  | cons first p ih =>
    obtain ⟨s, rfl⟩ := ha
    obtain ⟨t, rfl⟩ := hb
    cases k with
    | nil => exact absurd hak (not_le.mpr (nil_lt_cons _ _))
    | cons first' k =>
      rw [← not_lt, cons_append, cons_lt_cons_iff, not_or, not_and] at hak hkb
      obtain rfl : first = first' := le_antisymm (not_lt.mp hak.1) (not_lt.mp hkb.1)
      exact (prefix_cons_inj first).mpr
        (ih (prefix_append p s) (prefix_append p t) (not_lt.mp (hak.2 rfl)) (not_lt.mp (hkb.2 rfl)))

end Order

theorem toBe_lt_toBe_iff {width m n : Nat} (hm : m < 256 ^ width) (hn : n < 256 ^ width) :
    toBe width m < toBe width n ↔ m < n := by
  induction width generalizing m n with
  | zero => simp_all [toBe]
  | succ width ih =>
    have hm' : m / 256 < 256 ^ width := Nat.div_lt_of_lt_mul (by rwa [← Nat.pow_succ'])
    have hn' : n / 256 < 256 ^ width := Nat.div_lt_of_lt_mul (by rwa [← Nat.pow_succ'])
    have hdigit : ([UInt8.ofNat m] < [UInt8.ofNat n]) ↔ m % 256 < n % 256 := by
      simp [cons_lt_cons_iff, lt_iff_toNat_lt]
    rw [toBe, toBe, append_lt_append_iff (by simp), ih hm' hn', hdigit]
    have hinj : toBe width (m / 256) = toBe width (n / 256) ↔ m / 256 = n / 256 :=
      ⟨toBe_injOn hm' hn', congrArg _⟩
    rw [hinj]
    omega

def utf8Bytes (s : String) : List UInt8 := s.toUTF8.data.toList

/-! ### CRC-32 -/

def crc32Bit (crc : UInt32) : UInt32 :=
  if crc &&& 1 = 1 then (crc >>> 1) ^^^ 0xEDB88320 else crc >>> 1

def crc32Byte (crc : UInt32) (byte : UInt8) : UInt32 := crc32Bit^[8] (crc ^^^ byte.toUInt32)

def crc32 (data : List UInt8) : UInt32 := data.foldl crc32Byte 0xFFFFFFFF ^^^ 0xFFFFFFFF

example : crc32 [0x31, 0x32, 0x33, 0x34, 0x35, 0x36, 0x37, 0x38, 0x39] = 0xCBF43926 := by decide +kernel

end Lib
