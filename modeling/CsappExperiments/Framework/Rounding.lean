import Mathlib.Data.Nat.Size
import CsappExperiments.Framework.FloatFormat

/-! # Multiplication of floating-point numbers

    The product of two numbers of a format: the exact product, rounded to the
    nearest number of the format, to the one with an even significand when two
    are equally near, and to an infinity when it is too large.

    `roundMagnitude m e` is the pattern of `m * 2 ^ e`, which need not be a
    number of the format. Because the field of the exponent is next to that of
    the fraction, a significand that is rounded up to the next power of two
    carries into the exponent, and the largest numbers into the infinities.

    * `roundMagnitude_exact`: a number of the format is its own rounding.
    * `roundMagnitude_tiny`: at most half the least positive number, and the
      rounding is 0.
-/

namespace FloatFormat

/-! ## Section 1: Rounding -/

/-- `m / 2 ^ k` to the nearest integer, and to an even one when in doubt. -/
def roundShift (m k : Nat) : Nat :=
  let q := m / 2 ^ k
  let r := m % 2 ^ k
  if 2 * r < 2 ^ k ∨ 2 * r = 2 ^ k ∧ q % 2 = 0 then q else q + 1

theorem roundShift_mul (n k : Nat) : roundShift (n * 2 ^ k) k = n := by
  have hpos : 0 < 2 ^ k := Nat.two_pow_pos k
  unfold roundShift
  rw [Nat.mul_mod_left, Nat.mul_div_cancel n hpos, if_pos (.inl (by omega))]

theorem roundShift_of_le_half {m k : Nat} (h : 2 * m ≤ 2 ^ k) : roundShift m k = 0 := by
  have hpos : 0 < 2 ^ k := Nat.two_pow_pos k
  have hlt : m < 2 ^ k := by omega
  unfold roundShift
  rw [Nat.mod_eq_of_lt hlt, Nat.div_eq_of_lt hlt, if_pos (by omega)]

namespace Format

variable (F : Format)

/-- The scale of the denormals. -/
def minScale : ℤ := 1 - F.bias - F.fracBits

/-- The pattern of the positive infinity. -/
def infinity : Nat := (2 ^ F.expBits - 1) * 2 ^ F.fracBits

/-- A pattern of no number. -/
def quietNaN : Nat := F.infinity + 2 ^ (F.fracBits - 1)

/-- The scale of the last bit of the significand, for numbers near `m * 2 ^ e`. -/
def scaleFor (m : Nat) (e : ℤ) : ℤ := max (e + m.size - (F.fracBits + 1)) F.minScale

/-- The pattern of `m * 2 ^ e`, rounded. -/
def roundMagnitude (m : Nat) (e : ℤ) : Nat :=
  let s := F.scaleFor m e
  let sig := roundShift (m * 2 ^ (e - s).toNat) (s - e).toNat
  if m = 0 then 0 else min ((s - F.minScale).toNat * 2 ^ F.fracBits + sig) F.infinity

variable {F}

theorem roundMagnitude_zero (e : ℤ) : F.roundMagnitude 0 e = 0 := by
  simp [roundMagnitude]

/-- The pattern of a significand `n` that fits, at the scale `s`, however the
    number is given. -/
theorem roundMagnitude_exact {m n : Nat} {e s : ℤ}
    (hm : m * 2 ^ (e - s).toNat = n * 2 ^ (s - e).toNat) (hn : n ≠ 0)
    (hlt : n < 2 ^ (F.fracBits + 1)) (hs : F.minScale ≤ s)
    (hnormal : s ≠ F.minScale → 2 ^ F.fracBits ≤ n) :
    F.roundMagnitude m e = min ((s - F.minScale).toNat * 2 ^ F.fracBits + n) F.infinity := by
  have hne : m ≠ 0 := by
    intro hzero
    rw [hzero, Nat.zero_mul] at hm
    exact Nat.mul_ne_zero hn (Nat.two_pow_pos _).ne' hm.symm
  have hsize : m.size + (e - s).toNat = n.size + (s - e).toNat := by
    rw [← Nat.size_shiftLeft hne, ← Nat.size_shiftLeft hn, Nat.shiftLeft_eq, Nat.shiftLeft_eq, hm]
  have hle : n.size ≤ F.fracBits + 1 := Nat.size_le.mpr hlt
  have hscale : F.scaleFor m e = s := by
    unfold scaleFor
    by_cases hden : s = F.minScale
    · subst hden
      omega
    · have hge : F.fracBits < n.size := Nat.lt_size.mpr (hnormal hden)
      omega
  unfold roundMagnitude
  rw [hscale]
  dsimp only
  rw [hm, roundShift_mul, if_neg hne]

theorem roundMagnitude_tiny {m : Nat} {e : ℤ} {k : Nat} (he : F.minScale - e = k)
    (h : 2 * m ≤ 2 ^ k) :
    F.roundMagnitude m e = 0 := by
  by_cases hm : m = 0
  · rw [hm, roundMagnitude_zero]
  have hsize : m.size ≤ k := Nat.size_le.mpr (by omega)
  have hscale : F.scaleFor m e = F.minScale := by
    unfold scaleFor
    omega
  unfold roundMagnitude
  rw [hscale]
  have hup : (e - F.minScale).toNat = 0 := by omega
  have hdown : (F.minScale - e).toNat = k := by omega
  dsimp only
  rw [hup, hdown, pow_zero, Nat.mul_one, roundShift_of_le_half h, if_neg hm]
  simp

end Format

/-! ## Section 2: Products -/

namespace Fields

variable {F : Format}

/-- An infinity or no number. -/
def special (x : Fields F) : Prop := x.exp = 2 ^ F.expBits - 1

instance (x : Fields F) : Decidable x.special := inferInstanceAs (Decidable (_ = _))

def isNaN (x : Fields F) : Prop := x.special ∧ x.frac ≠ 0

instance (x : Fields F) : Decidable x.isNaN := inferInstanceAs (Decidable (_ ∧ _))

/-- The pattern of the product. -/
def mul (x y : Fields F) : Nat :=
  let sign := 2 ^ (F.expBits + F.fracBits) * (x.sign ^^ y.sign).toNat
  if x.isNaN ∨ y.isNaN then F.quietNaN
  else if x.special ∨ y.special then
    if x.significand = 0 ∨ y.significand = 0 then F.quietNaN else sign + F.infinity
  else sign + F.roundMagnitude (x.significand * y.significand) (x.scale + y.scale)

theorem mul_finite {x y : Fields F} (hx : ¬ x.special) (hy : ¬ y.special) :
    x.mul y = 2 ^ (F.expBits + F.fracBits) * (x.sign ^^ y.sign).toNat +
      F.roundMagnitude (x.significand * y.significand) (x.scale + y.scale) := by
  have hnan : ¬ (x.isNaN ∨ y.isNaN) := fun h => h.elim (fun h => hx h.1) fun h => hy h.1
  have hspecial : ¬ (x.special ∨ y.special) := not_or.mpr ⟨hx, hy⟩
  unfold mul
  rw [if_neg hnan, if_neg hspecial]

/-- An infinity times a number other than 0, or another infinity. -/
theorem mul_infinite {x y : Fields F} (hnan : ¬ (x.isNaN ∨ y.isNaN))
    (hspecial : x.special ∨ y.special) (hzero : ¬ (x.significand = 0 ∨ y.significand = 0)) :
    x.mul y = 2 ^ (F.expBits + F.fracBits) * (x.sign ^^ y.sign).toNat + F.infinity := by
  unfold mul
  rw [if_neg hnan, if_pos hspecial, if_neg hzero]

end Fields

end FloatFormat
