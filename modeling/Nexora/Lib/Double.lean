import Nexora.Lib.Json
import Mathlib.Algebra.Ring.Nat
import Mathlib.Data.Nat.Log

/-!
# Doubles in their total order

The order that compares doubles by their bits, and the double nearest to an integer. In the total
order a negative double is below a positive one, and among themselves the negative ones stand in the
reverse order of their bits.
-/

namespace Lib.F64
open BitVec

/-- The bits, with those below the sign turned round if the sign is set. -/
def totalBits (x : F64) : BitVec 64 := x.bits ^^^ ((x.bits.sshiftRight 63) >>> 1)

/-- What `total_cmp` compares. -/
def totalKey (x : F64) : Int := x.totalBits.toInt

theorem msb_totalBits (x : F64) : x.totalBits.msb = x.bits.msb := by
  simp [totalBits, msb_xor, msb_ushiftRight]

theorem getLsbD_sshiftRight_sign (b : BitVec 64) (i : Nat) (hi : i < 64) :
    (b.sshiftRight 63).getLsbD i = b.msb := by
  rw [getLsbD_sshiftRight, msb_eq_getLsbD_last]
  split
  · next hlt =>
    have hzero : i = 0 := by omega
    simp [hzero]
  · simp [hi]

theorem totalKey_injective : Function.Injective totalKey := by
  intro x y h
  have hbits : x.totalBits = y.totalBits := toInt_inj.mp h
  have hmsb : x.bits.msb = y.bits.msb := by rw [← msb_totalBits, hbits, msb_totalBits]
  have hmask : x.bits.sshiftRight 63 = y.bits.sshiftRight 63 := by
    apply eq_of_getLsbD_eq
    intro i hi
    simp [getLsbD_sshiftRight_sign _ i hi, hmsb]
  rw [totalBits, totalBits, hmask] at hbits
  have hsame : x.bits = y.bits := xor_left_inj _ |>.mp hbits
  cases x
  cases y
  exact congrArg F64.mk hsame

/-- The quotient by a power of two, rounded to the nearest and to an even one in the middle. -/
def roundShift (m s : Nat) : Nat :=
  let q := m >>> s
  let r := m % 2 ^ s
  if 2 ^ s < 2 * r ∨ 2 * r = 2 ^ s ∧ q % 2 = 1 then q + 1 else q

/-- `as f64`. The significand is added with its leading bit to an exponent field that is one too
small, so that one that rounds up to a power of two carries into the exponent. -/
def ofInt (n : Int) : F64 :=
  let m := n.natAbs
  if m = 0 then ⟨0⟩
  else
    let e := m.log2
    let significand := if e ≤ 52 then m <<< (52 - e) else roundShift m (e - 52)
    ⟨BitVec.ofNat 64 ((if n < 0 then 2 ^ 63 else 0) + ((e + 1022) <<< 52) + significand)⟩

end Lib.F64
