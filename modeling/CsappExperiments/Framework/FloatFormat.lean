import Mathlib.Data.Rat.Floor
import Mathlib.Tactic.Ring

/-! # Binary Floating-Point Formats

    A format has a sign bit, a field for the exponent and one for the
    fraction. A bit pattern, taken as a natural number, is read as these three
    fields (`fields`), and they denote a rational number, an infinity or no
    number at all (`Fields.datum`).

    The integer that remains when the fraction of a finite number is cut off
    can be computed by shifts (`Fields.truncate_value`). A pattern is put
    together from its fields by `Fields.bits`, and doubling a number is
    doubling its significand or the next exponent.
-/

namespace FloatFormat

/-! ## Section 1: Formats -/

/-- The widths of the exponent and of the fraction. -/
structure Format where
  expBits : Nat
  fracBits : Nat

/-- What is added to an exponent to make it a natural number. -/
def Format.bias (F : Format) : ℤ := 2 ^ (F.expBits - 1) - 1

/-- The fields of a bit pattern. -/
structure Fields (F : Format) where
  sign : Bool
  exp : Nat
  frac : Nat
  exp_lt : exp < 2 ^ F.expBits
  frac_lt : frac < 2 ^ F.fracBits

/-- The fields of a bit pattern, from the top: sign, exponent, fraction. -/
def fields (F : Format) (bits : Nat) : Fields F where
  sign := bits / 2 ^ (F.expBits + F.fracBits) % 2 = 1
  exp := bits / 2 ^ F.fracBits % 2 ^ F.expBits
  frac := bits % 2 ^ F.fracBits
  exp_lt := Nat.mod_lt _ (Nat.two_pow_pos _)
  frac_lt := Nat.mod_lt _ (Nat.two_pow_pos _)

/-- What a bit pattern denotes. -/
inductive Datum where
  | finite (sign : Bool) (value : ℚ)
  | infinite (sign : Bool)
  | nan
  deriving DecidableEq

variable {F : Format}

/-- The fraction with the bit in front of it, which only denormals lack. -/
def Fields.significand (x : Fields F) : Nat := if x.exp = 0 then x.frac else 2 ^ F.fracBits + x.frac

/-- The exponent of the last bit of the significand. -/
def Fields.scale (x : Fields F) : ℤ := max x.exp 1 - F.bias - F.fracBits

def Fields.magnitude (x : Fields F) : ℚ := x.significand * 2 ^ x.scale

def Fields.value (x : Fields F) : ℚ := if x.sign then -x.magnitude else x.magnitude

/-- The largest exponent is that of the infinities and of what is no number. -/
def Fields.datum (x : Fields F) : Datum :=
  if x.exp = 2 ^ F.expBits - 1 then
    if x.frac = 0 then .infinite x.sign else .nan
  else .finite x.sign x.value

theorem Fields.datum_finite {x : Fields F} (h : x.exp ≠ 2 ^ F.expBits - 1) :
    x.datum = .finite x.sign x.value := if_neg h

theorem Fields.datum_special {x : Fields F} (h : x.exp = 2 ^ F.expBits - 1) :
    x.datum = if x.frac = 0 then .infinite x.sign else .nan := if_pos h

/-! ## Section 2: Truncation -/

/-- Round toward zero. -/
def truncate (q : ℚ) : ℤ := if q < 0 then ⌈q⌉ else ⌊q⌋

theorem truncate_of_nonneg {q : ℚ} (h : 0 ≤ q) : truncate q = ⌊q⌋ := if_neg (not_lt.mpr h)

theorem truncate_neg_of_nonneg {q : ℚ} (h : 0 ≤ q) : truncate (-q) = -⌊q⌋ := by
  unfold truncate
  split
  · exact Int.ceil_neg
  · next hneg =>
    have hzero : q = 0 := le_antisymm (by linarith) h
    simp [hzero]

theorem two_zpow_eq (s : ℤ) : (2 : ℚ) ^ s = 2 ^ s.toNat / 2 ^ (-s).toNat := by
  obtain ⟨n, rfl | rfl⟩ := s.eq_nat_or_neg
  · simp
  · simp [zpow_neg]

/-- The integer part of the magnitude, by a shift to the left and one to the
    right, of which one is by 0. -/
def Fields.integerPart (x : Fields F) : Nat :=
  x.significand * 2 ^ x.scale.toNat / 2 ^ (-x.scale).toNat

theorem Fields.integerPart_of_nonneg {x : Fields F} (h : 0 ≤ x.scale) :
    x.integerPart = x.significand * 2 ^ x.scale.toNat := by
  unfold Fields.integerPart
  rw [show (-x.scale).toNat = 0 by omega, pow_zero, Nat.div_one]

theorem Fields.integerPart_of_nonpos {x : Fields F} (h : x.scale ≤ 0) :
    x.integerPart = x.significand / 2 ^ (-x.scale).toNat := by
  unfold Fields.integerPart
  rw [show x.scale.toNat = 0 by omega, pow_zero, Nat.mul_one]

theorem Fields.significand_lt (x : Fields F) : x.significand < 2 ^ (F.fracBits + 1) := by
  have hfrac := x.frac_lt
  unfold Fields.significand
  rw [pow_succ]
  split <;> omega

/-- A number below 1. -/
theorem Fields.integerPart_eq_zero {x : Fields F} (h : x.scale < -F.fracBits) :
    x.integerPart = 0 := by
  rw [Fields.integerPart_of_nonpos (by omega)]
  apply Nat.div_eq_of_lt
  exact Nat.lt_of_lt_of_le x.significand_lt (Nat.pow_le_pow_right Nat.two_pos (by omega))

theorem Fields.magnitude_nonneg (x : Fields F) : 0 ≤ x.magnitude :=
  mul_nonneg (Nat.cast_nonneg _) (zpow_nonneg zero_le_two _)

theorem Fields.floor_magnitude (x : Fields F) : ⌊x.magnitude⌋ = x.integerPart := by
  unfold Fields.magnitude Fields.integerPart
  have h := Rat.floor_natCast_div_natCast (x.significand * 2 ^ x.scale.toNat) (2 ^ (-x.scale).toNat)
  rw [two_zpow_eq, ← mul_div_assoc]
  push_cast at h ⊢
  exact h

theorem Fields.truncate_value (x : Fields F) :
    truncate x.value = if x.sign then -(x.integerPart : ℤ) else x.integerPart := by
  unfold Fields.value
  rw [← x.floor_magnitude]
  cases x.sign with
  | true => exact truncate_neg_of_nonneg x.magnitude_nonneg
  | false => exact truncate_of_nonneg x.magnitude_nonneg

/-! ## Section 3: Patterns -/

/-- The bit pattern with these fields. -/
def Fields.bits (x : Fields F) : Nat :=
  (2 ^ F.expBits * x.sign.toNat + x.exp) * 2 ^ F.fracBits + x.frac

theorem fields_bits (x : Fields F) : fields F x.bits = x := by
  obtain ⟨sign, exp, frac, hexp, hfrac⟩ := x
  have htop : ((2 ^ F.expBits * sign.toNat + exp) * 2 ^ F.fracBits + frac) / 2 ^ F.fracBits
      = 2 ^ F.expBits * sign.toNat + exp := by
    rw [Nat.mul_comm, Nat.mul_add_div (Nat.two_pow_pos _), Nat.div_eq_of_lt hfrac, Nat.add_zero]
  have hsign : (2 ^ F.expBits * sign.toNat + exp) / 2 ^ F.expBits = sign.toNat := by
    rw [Nat.mul_add_div (Nat.two_pow_pos _), Nat.div_eq_of_lt hexp, Nat.add_zero]
  unfold fields Fields.bits
  congr 1
  · rw [Nat.add_comm F.expBits, Nat.pow_add, ← Nat.div_div_eq_div_mul, htop, hsign]
    cases sign <;> rfl
  · rw [htop, Nat.mul_add_mod, Nat.mod_eq_of_lt hexp]
  · rw [Nat.mul_comm, Nat.mul_add_mod, Nat.mod_eq_of_lt hfrac]

/-- Every pattern of the right length is that of its fields. -/
theorem bits_fields {bits : Nat} (h : bits < 2 ^ (1 + F.expBits + F.fracBits)) :
    (fields F bits).bits = bits := by
  have hfrac := Nat.div_add_mod bits (2 ^ F.fracBits)
  have hexp := Nat.div_add_mod (bits / 2 ^ F.fracBits) (2 ^ F.expBits)
  have hsign : bits / 2 ^ F.fracBits / 2 ^ F.expBits < 2 := by
    rw [Nat.div_div_eq_div_mul, ← Nat.pow_add, Nat.div_lt_iff_lt_mul (Nat.two_pow_pos _)]
    rwa [Nat.add_assoc, Nat.add_comm F.expBits, Nat.pow_add] at h
  have hbit : (fields F bits).sign.toNat = bits / 2 ^ F.fracBits / 2 ^ F.expBits := by
    show (decide (bits / 2 ^ (F.expBits + F.fracBits) % 2 = 1)).toNat = _
    rw [Nat.add_comm F.expBits, Nat.pow_add, ← Nat.div_div_eq_div_mul, Nat.mod_eq_of_lt hsign]
    rcases Nat.le_one_iff_eq_zero_or_eq_one.mp (Nat.le_of_lt_succ hsign) with h | h
    · rw [h]
      rfl
    · rw [h]
      rfl
  unfold Fields.bits
  rw [hbit]
  show (_ + bits / 2 ^ F.fracBits % 2 ^ F.expBits) * _ + bits % 2 ^ F.fracBits = bits
  rw [hexp, Nat.mul_comm, hfrac]

/-! ## Section 4: Doubling -/

/-- The scale of the largest finite numbers. -/
def Format.maxScale (F : Format) : ℤ := 2 ^ F.expBits - 2 - F.bias - F.fracBits

/-- The largest finite number: its significand consists of ones. -/
def Format.maxFinite (F : Format) : ℚ := (2 ^ (F.fracBits + 1) - 1) * 2 ^ F.maxScale

theorem Fields.magnitude_of_significand {x y : Fields F} (hsig : y.significand = 2 * x.significand)
    (hscale : y.scale = x.scale) : y.magnitude = 2 * x.magnitude := by
  unfold Fields.magnitude
  rw [hsig, hscale]
  push_cast
  ring

theorem Fields.magnitude_of_scale {x y : Fields F} (hsig : y.significand = x.significand)
    (hscale : y.scale = x.scale + 1) : y.magnitude = 2 * x.magnitude := by
  unfold Fields.magnitude
  rw [hsig, hscale, zpow_add_one₀ two_ne_zero]
  ring

/-- A power of two has one bit in its significand. -/
theorem Fields.magnitude_of_bit {x : Fields F} {k : Nat} (hsig : x.significand = 2 ^ k) :
    x.magnitude = 2 ^ (k + x.scale) := by
  unfold Fields.magnitude
  rw [hsig, zpow_add₀ two_ne_zero, zpow_natCast]
  push_cast
  rfl

theorem Fields.value_of_magnitude {x y : Fields F} (hsign : y.sign = x.sign)
    (h : y.magnitude = 2 * x.magnitude) :
    y.value = 2 * x.value := by
  unfold Fields.value
  rw [hsign, h]
  split <;> ring

theorem Fields.abs_value (x : Fields F) : |x.value| = x.magnitude := by
  have habs := abs_of_nonneg x.magnitude_nonneg
  unfold Fields.value
  split
  · rw [abs_neg, habs]
  · exact habs

theorem Fields.scale_le {x : Fields F} (hbits : 2 ≤ F.expBits) (hexp : x.exp < 2 ^ F.expBits - 1) :
    x.scale ≤ F.maxScale := by
  have hpow : 2 ^ 2 ≤ 2 ^ F.expBits := Nat.pow_le_pow_right Nat.two_pos hbits
  have hcast : ((2 ^ F.expBits : Nat) : ℤ) = 2 ^ F.expBits := by
    push_cast
    rfl
  unfold Fields.scale Format.maxScale
  omega

/-- No finite number is larger. -/
theorem Fields.magnitude_le {x : Fields F} (hbits : 2 ≤ F.expBits)
    (hexp : x.exp < 2 ^ F.expBits - 1) :
    x.magnitude ≤ F.maxFinite := by
  have hsig : (x.significand : ℚ) ≤ 2 ^ (F.fracBits + 1) - 1 := by
    have hlt : (x.significand : ℚ) + 1 ≤ ((2 ^ (F.fracBits + 1) : Nat) : ℚ) := by
      exact_mod_cast x.significand_lt
    push_cast at hlt
    linarith
  have hscale : (2 : ℚ) ^ x.scale ≤ 2 ^ F.maxScale :=
    zpow_le_zpow_right₀ one_le_two (x.scale_le hbits hexp)
  unfold Fields.magnitude Format.maxFinite
  exact mul_le_mul hsig hscale (zpow_nonneg zero_le_two _) (le_trans (Nat.cast_nonneg _) hsig)

/-- Twice a number with the largest finite exponent is not finite. -/
theorem Fields.maxFinite_lt {x : Fields F} (hexp : x.exp ≠ 0) (hscale : x.scale = F.maxScale) :
    F.maxFinite < 2 * x.magnitude := by
  have hsig : (2 : ℚ) ^ F.fracBits ≤ x.significand := by
    have hle : 2 ^ F.fracBits ≤ x.significand := by
      unfold Fields.significand
      rw [if_neg hexp]
      exact Nat.le_add_right _ _
    exact_mod_cast hle
  have hpos : (0 : ℚ) < 2 ^ F.maxScale := zpow_pos two_pos _
  unfold Format.maxFinite Fields.magnitude
  rw [hscale, pow_succ, ← mul_assoc]
  apply mul_lt_mul_of_pos_right _ hpos
  linarith

end FloatFormat
