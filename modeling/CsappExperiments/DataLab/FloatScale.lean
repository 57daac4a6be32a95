import CsappExperiments.DataLab.FloatToInt

/-! # Data Lab: `floatScale2` and `floatPower2`

    `floatScale2` doubles a single-precision number: the bits of a denormal
    are shifted, also into the field of the exponent, and a normal number
    takes the next exponent. `float_scale` says that the result is exact or
    the infinity of the same sign.

    `floatPower2` puts together the pattern of a power of two. It adds the
    bias to the exponent before it tests the range, and this addition
    overflows for the 127 largest exponents (`power_iff`).
-/

open FloatFormat

namespace DataLab

/-! ## Section 1: Model -/

/-- `floatScale2`. -/
def floatScale2 (uf : Word) : Option Word := do
  let expMask : Word := 0x7f800000
  let antiExpMask : Word := 0x807fffff
  let exp ← ushr (uf &&& expMask) 23
  let sign := uf &&& (← shl 1 31)
  if exp = 0 then return (← shl uf 1) ||| sign
  if exp = 255 then return uf
  let exp := exp + 1
  if exp = 255 then return expMask ||| sign
  return (← shl exp 23) ||| (uf &&& antiExpMask)

/-- `floatPower2`. -/
def floatPower2 (x : Word) : Option Word := do
  if x.toInt ≥ -149 ∧ x.toInt ≤ -127 then
    let i := 149 + x
    shl 1 i
  else
    let exp := x + 127
    if exp.toInt ≤ 0 then return 0
    -- positive infinity
    if exp.toInt ≥ 255 then return 0x7f800000
    shl exp 23

example : floatScale2 0x00400001 = some 0x00800002 := by decide

/-- This word is twice the number: with its sign, and infinite where twice
    the number is too large. -/
def IsTwice (r uf : Word) : Prop :=
  match (singleFields uf).datum with
  | .finite sign v =>
    (singleFields r).datum =
      if |2 * v| ≤ single.maxFinite then .finite sign (2 * v) else .infinite sign
  | .infinite _ => r = uf
  | .nan => r = uf

/-- This word is two to the power of `x`: 0 where the power is too small, and
    infinity where it is too large. -/
def IsPower2 (r : Word) (x : Int) : Prop :=
  if x < -149 then r = 0
  else if x ≤ 127 then
    (singleFields r).datum = .finite false (2 ^ x) ∧ ((singleFields r).exp = 0 ↔ x < -126)
  else r = 0x7f800000

example : single.maxFinite = (2 ^ 24 - 1) * 2 ^ 104 := by rfl

/-! ## Section 2: Patterns of singles -/

theorem toNat_eq (uf : Word) :
    uf.toNat = 2 ^ 31 * (singleFields uf).sign.toNat + 2 ^ 23 * (singleFields uf).exp +
      (singleFields uf).frac := by
  have h : (singleFields uf).bits = uf.toNat := bits_fields uf.isLt
  have hbits : (singleFields uf).bits
      = (2 ^ 8 * (singleFields uf).sign.toNat + (singleFields uf).exp) * 2 ^ 23 +
        (singleFields uf).frac := rfl
  omega

/-- The fields of a word that is put together from them. -/
theorem fields_of_toNat {r : Word} (sign : Bool) (exp frac : Nat) (hexp : exp < 2 ^ 8)
    (hfrac : frac < 2 ^ 23) (h : r.toNat = 2 ^ 31 * sign.toNat + 2 ^ 23 * exp + frac) :
    (singleFields r).sign = sign ∧ (singleFields r).exp = exp ∧ (singleFields r).frac = frac := by
  have hbits : (Fields.bits (F := single) ⟨sign, exp, frac, hexp, hfrac⟩) = r.toNat := by
    show (2 ^ 8 * sign.toNat + exp) * 2 ^ 23 + frac = _
    omega
  have hfields : singleFields r = ⟨sign, exp, frac, hexp, hfrac⟩ := by
    unfold singleFields
    rw [← hbits, fields_bits]
  rw [hfields]
  exact ⟨rfl, rfl, rfl⟩

theorem toNat_sign (uf : Word) :
    (uf &&& 0x80000000).toNat = 2 ^ 31 * (singleFields uf).sign.toNat := by
  have hsign : (singleFields uf).sign = uf.toNat.testBit 31 := by
    rw [Nat.testBit_eq_decide_div_mod_eq]
    rfl
  rw [BitVec.toNat_and, hsign, Nat.mul_comm]
  exact Nat.and_two_pow _ 31

theorem toNat_shl_exp {exp : Word} (h : exp.toNat < 2 ^ 8) :
    (exp <<< 23).toNat = 2 ^ 23 * exp.toNat := by
  rw [BitVec.toNat_shiftLeft, Nat.shiftLeft_eq]
  omega

/-- Another exponent is put in the place of the one there was. -/
theorem toNat_replace_exp (uf : Word) {exp : Word} (h : exp.toNat < 2 ^ 8) :
    (exp <<< 23 ||| uf &&& 0x807fffff).toNat =
      2 ^ 31 * (singleFields uf).sign.toNat + (2 ^ 23 * exp.toNat + (singleFields uf).frac) := by
  have hmask : (0x807fffff : Word) = 0x80000000 ||| 0x007fffff := rfl
  have hlow : (uf &&& 0x007fffff).toNat = (singleFields uf).frac :=
    toNat_and_low uf 0x007fffff (m := 23) rfl
  have hlt : (singleFields uf).frac < 2 ^ 23 := (singleFields uf).frac_lt
  have hcomm (x y z : Word) : x ||| (y ||| z) = y ||| (x ||| z) := by
    ac_rfl
  have hrest : (exp <<< 23 ||| uf &&& 0x007fffff).toNat =
      2 ^ 23 * exp.toNat + (singleFields uf).frac := by
    rw [toNat_or_high _ _ (toNat_shl_exp h) (by omega), hlow]
  rw [hmask, BitVec.and_or_distrib_left, hcomm, toNat_or_high _ _ (toNat_sign uf) (by omega), hrest]

/-! ## Section 3: `floatScale2` -/

/-- A denormal, or zero: the fraction is shifted into the exponent. -/
theorem floatScale2_denormal {uf : Word} (h : (singleFields uf).exp = 0) :
    ∃ r, floatScale2 uf = some r ∧
      r.toNat = 2 ^ 31 * (singleFields uf).sign.toNat + 2 * (singleFields uf).frac := by
  have hexp : (uf &&& 0x7f800000) >>> 23 = 0 := BitVec.eq_of_toNat_eq (by rw [toNat_exp, h]; rfl)
  have heq := toNat_eq uf
  have hlt : (singleFields uf).frac < 2 ^ 23 := (singleFields uf).frac_lt
  refine ⟨uf <<< 1 ||| uf &&& 0x80000000, ?_, ?_⟩
  · show (if (uf &&& 0x7f800000) >>> 23 = 0 then some (uf <<< 1 ||| uf &&& 0x80000000) else _) = _
    rw [if_pos hexp]
  · -- the sign is shifted out, and put back
    have hshift : (uf <<< 1).toNat = 2 * (singleFields uf).frac := by
      rw [BitVec.toNat_shiftLeft, Nat.shiftLeft_eq, heq, h]
      omega
    rw [BitVec.or_comm, toNat_or_high _ _ (toNat_sign uf) (by omega), hshift]

theorem floatScale2_special {uf : Word} (h : (singleFields uf).exp = 255) :
    floatScale2 uf = some uf := by
  have hexp : (uf &&& 0x7f800000) >>> 23 = 255 := BitVec.eq_of_toNat_eq (by rw [toNat_exp, h]; rfl)
  show (if (uf &&& 0x7f800000) >>> 23 = 0 then _
    else if (uf &&& 0x7f800000) >>> 23 = 255 then some uf else _) = _
  rw [hexp, if_neg (by decide), if_pos rfl]

/-- A normal number takes the next exponent. The one after the last is that
    of the infinities, and the fraction is 0 then. -/
theorem floatScale2_normal {uf : Word} (hlo : (singleFields uf).exp ≠ 0)
    (hhi : (singleFields uf).exp < 255) :
    ∃ r, floatScale2 uf = some r ∧
      r.toNat = 2 ^ 31 * (singleFields uf).sign.toNat + 2 ^ 23 * ((singleFields uf).exp + 1) +
        if (singleFields uf).exp = 254 then 0 else (singleFields uf).frac := by
  have hexp := toNat_exp uf
  have hlt : (singleFields uf).frac < 2 ^ 23 := (singleFields uf).frac_lt
  have hne0 : (uf &&& 0x7f800000) >>> 23 ≠ 0 := by
    intro heq
    rw [heq] at hexp
    exact hlo hexp.symm
  have hne255 : (uf &&& 0x7f800000) >>> 23 ≠ 255 := by
    intro heq
    rw [heq] at hexp
    exact Nat.ne_of_lt hhi hexp.symm
  have hnext : ((uf &&& 0x7f800000) >>> 23 + 1).toNat = (singleFields uf).exp + 1 := by
    have hone : (1 : Word).toNat = 1 := rfl
    rw [BitVec.toNat_add, hexp, hone]
    omega
  have hrun : floatScale2 uf =
      if (uf &&& 0x7f800000) >>> 23 + 1 = 255 then some (0x7f800000 ||| uf &&& 0x80000000)
      else some (((uf &&& 0x7f800000) >>> 23 + 1) <<< 23 ||| uf &&& 0x807fffff) := by
    show (if (uf &&& 0x7f800000) >>> 23 = 0 then _
      else if (uf &&& 0x7f800000) >>> 23 = 255 then _ else _) = _
    rw [if_neg hne0, if_neg hne255]
    rfl
  rw [hrun]
  -- the exponent that follows is that of the infinities
  by_cases hlast : (singleFields uf).exp = 254
  · have h255 : (uf &&& 0x7f800000) >>> 23 + 1 = 255 :=
      BitVec.eq_of_toNat_eq (by rw [hnext, hlast]; rfl)
    refine ⟨0x7f800000 ||| uf &&& 0x80000000, if_pos h255, ?_⟩
    rw [BitVec.or_comm, toNat_or_high _ _ (toNat_sign uf) (by decide), if_pos hlast, hlast]
    rfl
  · have h255 : (uf &&& 0x7f800000) >>> 23 + 1 ≠ 255 := by
      intro heq
      rw [heq] at hnext
      have hval : (255 : Word).toNat = 255 := rfl
      omega
    refine ⟨_, if_neg h255, ?_⟩
    rw [toNat_replace_exp uf (by omega), hnext, if_neg hlast, Nat.add_assoc]

/-- A finite result. -/
theorem isTwice_of_magnitude {r uf : Word} (huf : (singleFields uf).exp ≠ 255)
    (hr : (singleFields r).exp < 255) (hsign : (singleFields r).sign = (singleFields uf).sign)
    (hmag : (singleFields r).magnitude = 2 * (singleFields uf).magnitude) : IsTwice r uf := by
  have hvalue := Fields.value_of_magnitude hsign hmag
  have hle : |2 * (singleFields uf).value| ≤ single.maxFinite := by
    rw [← hvalue, Fields.abs_value]
    exact Fields.magnitude_le (by decide) hr
  unfold IsTwice
  rw [Fields.datum_finite huf]
  show (singleFields r).datum = if _ then _ else _
  rw [if_pos hle, Fields.datum_finite hr.ne, hsign, hvalue]

/-- An infinite result. -/
theorem isTwice_of_large {r uf : Word} (huf : (singleFields uf).exp = 254)
    (hr : (singleFields r).exp = 255) (hfrac : (singleFields r).frac = 0)
    (hsign : (singleFields r).sign = (singleFields uf).sign) : IsTwice r uf := by
  have hscale : (singleFields uf).scale = single.maxScale := by
    have hbias : single.bias = 127 := rfl
    have hexpBits : (2 : Int) ^ single.expBits = 256 := rfl
    have hfracBits : (single.fracBits : Int) = 23 := rfl
    rw [scale_single, huf]
    unfold Format.maxScale
    omega
  have hlt : single.maxFinite < |2 * (singleFields uf).value| := by
    rw [abs_mul, Fields.abs_value, abs_two]
    exact Fields.maxFinite_lt (by omega) hscale
  have hne : (singleFields uf).exp ≠ 255 := by omega
  unfold IsTwice
  rw [Fields.datum_finite hne]
  show (singleFields r).datum = if _ then _ else _
  rw [if_neg (not_le.mpr hlt), Fields.datum_special hr, if_pos hfrac, hsign]

/-- The bit that a denormal carries into the exponent is the one in front of
    the fraction. -/
theorem isTwice_denormal {r uf : Word} (h : (singleFields uf).exp = 0)
    (hr : r.toNat = 2 ^ 31 * (singleFields uf).sign.toNat + 2 * (singleFields uf).frac) :
    IsTwice r uf := by
  have hlt : (singleFields uf).frac < 2 ^ 23 := (singleFields uf).frac_lt
  obtain ⟨hsign, hexp, hfrac⟩ := fields_of_toNat (r := r) (singleFields uf).sign
    (2 * (singleFields uf).frac / 2 ^ 23) (2 * (singleFields uf).frac % 2 ^ 23) (by omega)
      (by omega) (by omega)
  have hscale : (singleFields r).scale = (singleFields uf).scale := by
    rw [scale_single, scale_single, hexp, h]
    omega
  have hsig : (singleFields r).significand = 2 * (singleFields uf).significand := by
    unfold Fields.significand
    rw [hexp, hfrac, h]
    show (if 2 * (singleFields uf).frac / 2 ^ 23 = 0 then _ else 2 ^ 23 + _) =
        2 * (singleFields uf).frac
    split <;> omega
  exact isTwice_of_magnitude (by omega) (by omega) hsign
    (Fields.magnitude_of_significand hsig hscale)

theorem isTwice_normal {r uf : Word} (hlo : (singleFields uf).exp ≠ 0)
    (hhi : (singleFields uf).exp < 255)
    (hr : r.toNat = 2 ^ 31 * (singleFields uf).sign.toNat + 2 ^ 23 * ((singleFields uf).exp + 1) +
      if (singleFields uf).exp = 254 then 0 else (singleFields uf).frac) : IsTwice r uf := by
  have hlt : (singleFields uf).frac < 2 ^ 23 := (singleFields uf).frac_lt
  by_cases hlast : (singleFields uf).exp = 254
  · rw [if_pos hlast] at hr
    obtain ⟨hsign, hexp, hfrac⟩ := fields_of_toNat _ _ _ (by omega) (by decide) hr
    exact isTwice_of_large hlast (by omega) hfrac hsign
  · rw [if_neg hlast] at hr
    obtain ⟨hsign, hexp, hfrac⟩ := fields_of_toNat _ _ _ (by omega) hlt hr
    have hscale : (singleFields r).scale = (singleFields uf).scale + 1 := by
      rw [scale_single, scale_single, hexp]
      omega
    have hsig : (singleFields r).significand = (singleFields uf).significand := by
      rw [significand_single hlo, significand_single (by omega), hfrac]
    exact isTwice_of_magnitude (by omega) (by omega) hsign (Fields.magnitude_of_scale hsig hscale)

/-- `floatScale2` doubles: the result is exact wherever twice the number is
    finite, and otherwise the infinity with the sign of the number. -/
theorem float_scale (uf : Word) : ∃ r, floatScale2 uf = some r ∧ IsTwice r uf := by
  have hexp : (singleFields uf).exp < 2 ^ 8 := (singleFields uf).exp_lt
  by_cases hspecial : (singleFields uf).exp = 255
  · refine ⟨uf, floatScale2_special hspecial, ?_⟩
    unfold IsTwice
    by_cases hfrac : (singleFields uf).frac = 0
    · rw [Fields.datum_special hspecial, if_pos hfrac]
    · rw [Fields.datum_special hspecial, if_neg hfrac]
  by_cases hdenormal : (singleFields uf).exp = 0
  · obtain ⟨r, hrun, hr⟩ := floatScale2_denormal hdenormal
    exact ⟨r, hrun, isTwice_denormal hdenormal hr⟩
  · obtain ⟨r, hrun, hr⟩ := floatScale2_normal hdenormal (by omega)
    exact ⟨r, hrun, isTwice_normal hdenormal (by omega) hr⟩

/-! ## Section 4: `floatPower2` -/

theorem toInt_add_bias (x : Word) :
    (x + 127).toInt = if x.toInt ≤ 2 ^ 31 - 128 then x.toInt + 127 else x.toInt + 127 - 2 ^ 32 := by
  have hlt : x.toNat < 2 ^ 32 := x.isLt
  have hbias : (127 : Word).toNat = 127 := rfl
  rw [BitVec.toInt_eq_toNat_cond, BitVec.toInt_eq_toNat_cond, BitVec.toNat_add, hbias]
  split <;> split <;> omega

/-- The denormals. -/
theorem floatPower2_denormal {x : Word} (hlo : -149 ≤ x.toInt) (hhi : x.toInt ≤ -127) :
    ∃ r, floatPower2 x = some r ∧ r.toNat = 2 ^ (149 + x.toInt).toNat := by
  have hlt : x.toNat < 2 ^ 32 := x.isLt
  have hconst : (149 : Word).toNat = 149 := rfl
  have hn : (149 + x : Word).toNat = (149 + x.toInt).toNat := by
    rw [BitVec.toInt_eq_toNat_cond] at hlo hhi ⊢
    rw [BitVec.toNat_add, hconst]
    split at hlo <;> omega
  refine ⟨(1 : Word) <<< (149 + x.toInt).toNat, ?_, ?_⟩
  · show (if x.toInt ≥ -149 ∧ x.toInt ≤ -127 then shl 1 (149 + x) else _) = _
    unfold shl
    rw [if_pos ⟨hlo, hhi⟩, hn, if_pos (by omega)]
  · have hfits : 2 ^ (149 + x.toInt).toNat < 2 ^ 32 := Nat.pow_lt_pow_right (by decide) (by omega)
    have hone : (1 : Word).toNat = 1 := rfl
    rw [BitVec.toNat_shiftLeft, hone, Nat.one_shiftLeft, Nat.mod_eq_of_lt hfits]

/-- The other cases are told apart by the biased exponent. -/
theorem floatPower2_biased {x : Word} (h : ¬ (x.toInt ≥ -149 ∧ x.toInt ≤ -127)) :
    floatPower2 x =
      if (x + 127).toInt ≤ 0 then some (0 : Word)
      else if (x + 127).toInt ≥ 255 then some (0x7f800000 : Word)
      else some ((x + 127) <<< 23) := by
  unfold floatPower2
  rw [if_neg h]
  rfl

theorem floatPower2_normal {x : Word} (hlo : -127 < x.toInt) (hhi : x.toInt ≤ 127) :
    ∃ r, floatPower2 x = some r ∧ r.toNat = 2 ^ 23 * (x.toInt + 127).toNat := by
  have hbias : (x + 127).toInt = x.toInt + 127 := by
    rw [toInt_add_bias, if_pos (by omega)]
  have hlt : (x + 127).toNat < 2 ^ 32 := (x + 127).isLt
  have hn : (x + 127).toNat = (x.toInt + 127).toNat := by
    rw [BitVec.toInt_eq_toNat_cond] at hbias
    split at hbias <;> omega
  refine ⟨(x + 127) <<< 23, ?_, ?_⟩
  · rw [floatPower2_biased (by omega), if_neg (by omega), if_neg (by omega)]
  · rw [toNat_shl_exp (by omega), hn]

/-- The results where the power is a number. -/
theorem isPower2_of_bit {r : Word} {x : Int} {k : Nat} (hlo : -149 ≤ x) (hhi : x ≤ 127)
    (hsign : (singleFields r).sign = false) (hexp : (singleFields r).exp < 255)
    (hsig : (singleFields r).significand = 2 ^ k) (hscale : k + (singleFields r).scale = x)
    (hden : (singleFields r).exp = 0 ↔ x < -126) : IsPower2 r x := by
  have hvalue : (singleFields r).value = 2 ^ x := by
    unfold Fields.value
    rw [hsign, Fields.magnitude_of_bit hsig, hscale]
    rfl
  unfold IsPower2
  rw [if_neg (by omega), if_pos hhi, Fields.datum_finite hexp.ne, hsign, hvalue]
  exact ⟨rfl, hden⟩

theorem isPower2_denormal {r : Word} {x : Int} (hlo : -149 ≤ x) (hhi : x ≤ -127)
    (hr : r.toNat = 2 ^ (149 + x).toNat) : IsPower2 r x := by
  have hlt : 2 ^ (149 + x).toNat < 2 ^ 23 := Nat.pow_lt_pow_right (by decide) (by omega)
  obtain ⟨hsign, hexp, hfrac⟩ := fields_of_toNat (r := r) false 0 _ (by decide) hlt
    (by rw [hr]; exact (Nat.zero_add _).symm)
  have hsig : (singleFields r).significand = 2 ^ (149 + x).toNat := by
    unfold Fields.significand
    rw [if_pos hexp, hfrac]
  apply isPower2_of_bit hlo (by omega) hsign (by omega) hsig
  · rw [scale_single, hexp]
    omega
  · omega

theorem isPower2_normal {r : Word} {x : Int} (hlo : -127 < x) (hhi : x ≤ 127)
    (hr : r.toNat = 2 ^ 23 * (x + 127).toNat) : IsPower2 r x := by
  obtain ⟨hsign, hexp, hfrac⟩ := fields_of_toNat (r := r) false (x + 127).toNat 0
    (by omega) (by decide) (by rw [hr]; exact (Nat.zero_add _).symm)
  have hsig : (singleFields r).significand = 2 ^ 23 := by
    rw [significand_single (by omega), hfrac, Nat.add_zero]
  apply isPower2_of_bit (by omega) hhi hsign (by omega) hsig
  · rw [scale_single, hexp]
    omega
  · omega

/-- Where the sum of exponent and bias is an `int`. -/
theorem floatPower2_isPower2 {x : Word} (h : x.toInt ≤ 2 ^ 31 - 128) :
    ∃ r, floatPower2 x = some r ∧ IsPower2 r x.toInt := by
  have hbias : (x + 127).toInt = x.toInt + 127 := by
    rw [toInt_add_bias, if_pos h]
  by_cases hsmall : x.toInt < -149
  · refine ⟨0, ?_, ?_⟩
    · rw [floatPower2_biased (by omega), if_pos (by omega)]
    · unfold IsPower2
      rw [if_pos hsmall]
  by_cases hdenormal : x.toInt ≤ -127
  · obtain ⟨r, hrun, hr⟩ := floatPower2_denormal (by omega) hdenormal
    exact ⟨r, hrun, isPower2_denormal (by omega) hdenormal hr⟩
  by_cases hnormal : x.toInt ≤ 127
  · obtain ⟨r, hrun, hr⟩ := floatPower2_normal (by omega) hnormal
    exact ⟨r, hrun, isPower2_normal (by omega) hnormal hr⟩
  · refine ⟨0x7f800000, ?_, ?_⟩
    · rw [floatPower2_biased (by omega), if_neg (by omega), if_pos (by omega)]
    · unfold IsPower2
      rw [if_neg hsmall, if_neg hnormal]

/-- Beyond, the sum is negative and the result is that of a tiny power. -/
theorem floatPower2_wraps {x : Word} (h : ¬ x.toInt ≤ 2 ^ 31 - 128) : floatPower2 x = some 0 := by
  have hhi : x.toInt < 2 ^ 31 := x.toInt_lt
  have hbias : (x + 127).toInt = x.toInt + 127 - 2 ^ 32 := by
    rw [toInt_add_bias, if_neg h]
  rw [floatPower2_biased (by omega), if_pos (by omega)]

/-- `floatPower2` is right exactly where adding the bias does not overflow. -/
theorem power_iff (x : Word) :
    (∃ r, floatPower2 x = some r ∧ IsPower2 r x.toInt) ↔ x.toInt ≤ 2 ^ 31 - 128 := by
  constructor
  · rintro ⟨r, hrun, hr⟩
    by_contra h
    obtain rfl : 0 = r := Option.some.inj ((floatPower2_wraps h).symm.trans hrun)
    unfold IsPower2 at hr
    rw [if_neg (by omega), if_neg (by omega)] at hr
    exact absurd hr (by decide)
  · exact floatPower2_isPower2

/-- For the largest `int` the result is 0 instead of infinity. -/
theorem power_int_max :
    ¬ ∃ r, floatPower2 0x7fffffff = some r ∧ IsPower2 r (0x7fffffff : Word).toInt := by
  rintro ⟨r, hrun, hr⟩
  obtain rfl : (0 : Word) = r := Option.some.inj hrun
  have hne : (0 : Word) = 0x7f800000 := hr
  exact absurd hne (by decide)

end DataLab
