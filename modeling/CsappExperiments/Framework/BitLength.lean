import Mathlib.Algebra.Order.Ring.Nat
import Mathlib.Data.Nat.Size

/-! # Lengths of Binary Numerals

    `Nat.size` is the number of binary digits of a number. A numeral is cut
    into its upper digits and the others (`size_eq_add`), and bounds on powers
    whose exponents are lengths, or powers of two, are reduced to bounds on
    the base (`pow_lt_iff`).
-/

namespace BitLength

/-- The length of a number is that of its upper part and what is cut off. -/
theorem size_eq_add {n k : Nat} (h : n / 2 ^ k ≠ 0) : n.size = k + (n / 2 ^ k).size := by
  have hpos : 0 < (n / 2 ^ k).size := Nat.size_pos.mpr (Nat.pos_of_ne_zero h)
  apply Nat.le_antisymm
  · rw [Nat.size_le, Nat.add_comm, Nat.pow_add]
    exact (Nat.div_lt_iff_lt_mul (Nat.two_pow_pos k)).mp (Nat.lt_size_self _)
  · have hbit : 2 ^ ((n / 2 ^ k).size - 1) ≤ n / 2 ^ k := Nat.lt_size.mp (by omega)
    have hle : 2 ^ ((n / 2 ^ k).size - 1 + k) ≤ n := by
      rw [Nat.pow_add]
      exact (Nat.le_div_iff_mul_le (Nat.two_pow_pos k)).mp hbit
    have hlt := Nat.lt_size.mpr hle
    omega

theorem size_half {n : Nat} (h : n ≠ 0) : n.size = (n / 2).size + 1 := by
  by_cases hhalf : n / 2 = 0
  · obtain rfl : n = 1 := by omega
    rfl
  · have hsize := size_eq_add (n := n) (k := 1) hhalf
    rwa [Nat.pow_one, Nat.add_comm] at hsize

theorem size_le_one {n : Nat} (h : n < 2) : n.size = n := by
  obtain rfl | rfl : n = 0 ∨ n = 1 := by omega
  · rfl
  · rfl

/-- A bound on a power bounds the powers with smaller exponents. -/
theorem pow_lt_of_le {b m n N : Nat} (hN : 1 < N) (h : b ^ n < N) (hmn : m ≤ n) : b ^ m < N := by
  by_cases hb : b = 0
  · have hle : b ^ m ≤ 1 ^ m := Nat.pow_le_pow_left (by omega) m
    rw [Nat.one_pow] at hle
    omega
  · exact Nat.lt_of_le_of_lt (Nat.pow_le_pow_right (Nat.pos_of_ne_zero hb) hmn) h

/-- The largest base whose power stays below a bound. -/
theorem pow_lt_iff {b c m N : Nat} (hlo : c ^ m < N) (hhi : N ≤ (c + 1) ^ m) :
    b ^ m < N ↔ b ≤ c := by
  constructor
  · intro h
    apply Nat.le_of_not_lt
    intro hgt
    have hle : (c + 1) ^ m ≤ b ^ m := Nat.pow_le_pow_left hgt m
    omega
  · intro h
    exact Nat.lt_of_le_of_lt (Nat.pow_le_pow_left h m) hlo

end BitLength
