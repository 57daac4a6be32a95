import Mathlib.Data.Nat.Bitwise

/-! # Data Lab: the machine

    The machine that `bits.c` assumes: 32-bit two's complement integers,
    arithmetic right shifts, and no promise about shifts by less than 0 or
    more than 31.
-/

namespace DataLab

/-- An `int` or an `unsigned`. -/
abbrev Word : Type := BitVec 32

/-- `x << n`. -/
def shl (x n : Word) : Option Word := if n.toNat < 32 then some (x <<< n.toNat) else none

/-- `x >> n` for an `unsigned`. -/
def ushr (x n : Word) : Option Word := if n.toNat < 32 then some (x >>> n.toNat) else none

/-- `x >> n` for an `int`. -/
def sshr (x n : Word) : Option Word := if n.toNat < 32 then some (x.sshiftRight n.toNat) else none

/-- `!x`. -/
def lnot (x : Word) : Word := if x = 0 then 1 else 0

/-- The value of a comparison. -/
def ofProp (p : Prop) [Decidable p] : Word := if p then 1 else 0

theorem toNat_and_low (x mask : Word) {m : Nat} (hmask : mask.toNat = 2 ^ m - 1) :
    (x &&& mask).toNat = x.toNat % 2 ^ m := by
  rw [BitVec.toNat_and, hmask, Nat.and_two_pow_sub_one_eq_mod]

/-- A field of `m` bits above the lowest `k`. -/
theorem toNat_and_field (x mask : Word) {k m : Nat} (hmask : mask.toNat >>> k = 2 ^ m - 1) :
    ((x &&& mask) >>> k).toNat = x.toNat / 2 ^ k % 2 ^ m := by
  rw [BitVec.toNat_ushiftRight, BitVec.toNat_and, Nat.shiftRight_and_distrib, hmask,
    Nat.and_two_pow_sub_one_eq_mod,
    Nat.shiftRight_eq_div_pow]

/-- Setting bits above the others adds them. -/
theorem toNat_or_high (x high : Word) {k a : Nat} (hhigh : high.toNat = 2 ^ k * a)
    (hx : x.toNat < 2 ^ k) :
    (high ||| x).toNat = 2 ^ k * a + x.toNat := by
  rw [BitVec.toNat_or, hhigh, Nat.two_pow_add_eq_or_of_lt hx]

theorem toNat_or_bit (x bit : Word) {k : Nat} (hbit : bit.toNat = 2 ^ k) (hx : x.toNat < 2 ^ k) :
    (x ||| bit).toNat = 2 ^ k + x.toNat := by
  have h := toNat_or_high x bit (a := 1) (by rw [hbit, Nat.mul_one]) hx
  rwa [BitVec.or_comm, ← Nat.mul_one (2 ^ k)]

theorem toNat_sshiftRight {x : Word} (h : x.toNat < 2 ^ 31) (n : Nat) :
    (x.sshiftRight n).toNat = x.toNat / 2 ^ n := by
  have hmsb : x.msb = false := by
    rw [BitVec.msb_eq_decide, decide_eq_false_iff_not]
    omega
  rw [BitVec.toNat_sshiftRight_of_msb_false hmsb, Nat.shiftRight_eq_div_pow]

theorem toInt_of_lt {x : Word} (h : x.toNat < 2 ^ 31) : x.toInt = x.toNat :=
  BitVec.toInt_eq_toNat_of_lt (by omega)

theorem toInt_nonneg_iff {x : Word} : 0 ≤ x.toInt ↔ x.toNat < 2 ^ 31 := by
  have hlt : x.toNat < 2 ^ 32 := x.isLt
  rw [BitVec.toInt_eq_toNat_cond]
  split <;> omega

/-- The sign of an `int`, as all bits of a word. -/
theorem sshiftRight_31 (x : Word) :
    x.sshiftRight 31 = if x.toNat < 2 ^ 31 then 0#32 else -1#32 := by
  apply BitVec.eq_of_toInt_eq
  have hlt : x.toNat < 2 ^ 32 := x.isLt
  rw [BitVec.toInt_sshiftRight, Int.shiftRight_eq_div_pow, BitVec.toInt_eq_toNat_cond]
  split
  · next h =>
    rw [if_pos (by omega)]
    show _ = (0 : Int)
    omega
  · next h =>
    rw [if_neg (by omega)]
    show _ = (-1 : Int)
    omega

/-- The choice by a mask of zeros or ones. -/
theorem mask_select (p : Prop) [Decidable p] (y z : Word) :
    ((if p then 0#32 else -1#32) &&& y) ||| (~~~(if p then 0#32 else -1#32) &&& z) =
      if p then z else y := by
  have hones : -1#32 = BitVec.allOnes 32 := rfl
  have hcompl : ~~~(0#32) = BitVec.allOnes 32 := rfl
  split
  · rw [BitVec.zero_and, BitVec.zero_or, hcompl, BitVec.allOnes_and]
  · rw [hones, BitVec.allOnes_and, BitVec.not_allOnes, BitVec.zero_and, BitVec.or_zero]

end DataLab
