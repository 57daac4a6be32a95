import CsappExperiments.Framework.FloatFormat
import CsappExperiments.DataLab.Word

/-! # Data Lab: `floatFloat2Int`

    The conversion of a single-precision number to an `int`. The code looks at
    the exponent first, shifts the fraction into place as if it were positive,
    and then tells an overflow from the bit that has got into the place of the
    sign.

    `float_to_int` says that this is truncation, and that no shift is by more
    than 31.
-/

open FloatFormat

namespace DataLab

/-! ## Section 1: Model -/

/-- IEEE single precision. -/
def single : Format where
  expBits := 8
  fracBits := 23

/-- The fields of a single. -/
def singleFields (uf : Word) : Fields single := fields single uf.toNat

/-- `floatFloat2Int`. -/
def floatFloat2Int (uf : Word) : Option Word := do
  let sign ← ushr uf 31
  let exp := (← ushr (uf &&& 0x7f800000) 23) - 127
  -- the bit ahead of the fraction
  let frac := (uf &&& 0x007fffff) ||| 0x00800000
  if uf &&& 0x7fffffff = 0 then return 0
  if exp.toInt > 31 then return 0x80000000
  if exp.toInt < 0 then return 0
  let frac ← if exp.toInt > 23 then shl frac (exp - 23) else sshr frac (23 - exp)
  if (← sshr frac 31) ^^^ sign = 0 then return frac
  else if (← sshr frac 31) ≠ 0 then return 0x80000000
  else return ~~~frac + 1

/-- This word is what remains of the number as an `int`: the number without
    its fraction, or 0x80000000 where that is no `int`. -/
def IsIntOf (r : Word) : Datum → Prop
  | .finite _ v =>
    if -2 ^ 31 ≤ truncate v ∧ truncate v ≤ 2 ^ 31 - 1 then r.toInt = truncate v else r = 0x80000000
  | .infinite _ => r = 0x80000000
  | .nan => r = 0x80000000

/-! ## Section 2: Fields -/

theorem toNat_exp (uf : Word) : ((uf &&& 0x7f800000) >>> 23).toNat = (singleFields uf).exp :=
  toNat_and_field uf 0x7f800000 rfl

theorem toNat_frac (uf : Word) :
    ((uf &&& 0x007fffff) ||| 0x00800000).toNat = 2 ^ 23 + (singleFields uf).frac := by
  have hlow : (uf &&& 0x007fffff).toNat = (singleFields uf).frac :=
    toNat_and_low uf 0x007fffff (m := 23) rfl
  have hlt : (singleFields uf).frac < 2 ^ 23 := (singleFields uf).frac_lt
  rw [toNat_or_bit _ _ (k := 23) rfl (hlow ▸ hlt), hlow]

theorem sign_eq (uf : Word) : uf >>> 31 = if (singleFields uf).sign then 1#32 else 0#32 := by
  have hlt : uf.toNat < 2 ^ 32 := uf.isLt
  have hsign : (singleFields uf).sign = decide (uf.toNat / 2 ^ 31 % 2 = 1) := rfl
  apply BitVec.eq_of_toNat_eq
  rw [BitVec.toNat_ushiftRight, Nat.shiftRight_eq_div_pow, hsign]
  by_cases h : uf.toNat / 2 ^ 31 % 2 = 1
  · rw [if_pos (decide_eq_true h)]
    show _ = 1
    omega
  · rw [if_neg (by simpa using h)]
    show _ = 0
    omega

theorem toInt_exp (uf : Word) :
    (((uf &&& 0x7f800000) >>> 23) - 127).toInt = (singleFields uf).exp - 127 := by
  have hexp := toNat_exp uf
  have hlt : (singleFields uf).exp < 2 ^ 8 := (singleFields uf).exp_lt
  have hbias : (127 : Word).toNat = 127 := rfl
  rw [BitVec.toInt_eq_toNat_cond, BitVec.toNat_sub, hexp, hbias]
  split <;> omega

/-! ## Section 3: The two halves of the computation -/

theorem toNat_of_toInt {exp : Word} {e : Nat} (h : exp.toInt = e - 127) (hlo : 127 ≤ e) :
    exp.toNat = e - 127 := by
  rw [BitVec.toInt_eq_toNat_cond] at h
  split at h <;> omega

/-- The shift to the left, by at most 8, loses nothing. -/
theorem shl_frac {exp frac : Word} {e : Nat} (hexp : exp.toInt = e - 127) (hlo : 150 < e)
    (hhi : e ≤ 158) (hfrac : frac.toNat < 2 ^ 24) :
    ∃ w, shl frac (exp - 23) = some w ∧ w.toNat = frac.toNat * 2 ^ (e - 150) := by
  have hbits : (23 : Word).toNat = 23 := rfl
  have hn : (exp - 23).toNat = e - 150 := by
    rw [BitVec.toNat_sub, toNat_of_toInt hexp (by omega), hbits]
    omega
  refine ⟨frac <<< (e - 150), ?_, ?_⟩
  · unfold shl
    rw [hn, if_pos (by omega)]
  · have hfits : frac.toNat * 2 ^ (e - 150) < 2 ^ 32 :=
      calc frac.toNat * 2 ^ (e - 150) < 2 ^ 24 * 2 ^ 8 :=
            Nat.mul_lt_mul_of_lt_of_le hfrac (Nat.pow_le_pow_right Nat.two_pos (by omega))
              (Nat.two_pow_pos _)
        _ = 2 ^ 32 := rfl
    rw [BitVec.toNat_shiftLeft, Nat.shiftLeft_eq, Nat.mod_eq_of_lt hfits]

/-- The shift to the right is by at most 23. -/
theorem sshr_frac {exp frac : Word} {e : Nat} (hexp : exp.toInt = e - 127) (hlo : 127 ≤ e)
    (hhi : e ≤ 150) (hfrac : frac.toNat < 2 ^ 24) :
    ∃ w, sshr frac (23 - exp) = some w ∧ w.toNat = frac.toNat / 2 ^ (150 - e) := by
  have hbits : (23 : Word).toNat = 23 := rfl
  have hn : (23 - exp).toNat = 150 - e := by
    rw [BitVec.toNat_sub, toNat_of_toInt hexp hlo, hbits]
    omega
  refine ⟨frac.sshiftRight (150 - e), ?_, ?_⟩
  · unfold sshr
    rw [hn, if_pos (by omega)]
  · exact toNat_sshiftRight (by omega) _

/-- The `int` with this sign and absolute value, or 0x80000000 where the value
    takes the place of the sign. -/
def withSign (sign : Bool) (k : Nat) : Word :=
  if k < 2 ^ 31 then if sign then -BitVec.ofNat 32 k else BitVec.ofNat 32 k else 0x80000000

/-- The test for an overflow. -/
theorem withSign_eq (sign : Bool) (w : Word) :
    (if w.sshiftRight 31 ^^^ (if sign then 1#32 else 0#32) = 0 then some w
      else if w.sshiftRight 31 ≠ 0 then some 0x80000000
      else some (~~~w + 1)) = some (withSign sign w.toNat) := by
  unfold withSign
  rw [sshiftRight_31, BitVec.ofNat_toNat, BitVec.setWidth_eq]
  by_cases hw : w.toNat < 2 ^ 31
  · rw [if_pos hw, if_pos hw]
    cases sign with
    | false => rfl
    | true => exact congrArg some (BitVec.neg_eq_not_add w).symm
  · rw [if_neg hw, if_neg hw]
    cases sign <;> rfl

theorem toInt_withSign {sign : Bool} {k : Nat} (hk : k < 2 ^ 31) :
    (withSign sign k).toInt = if sign then -(k : Int) else k := by
  unfold withSign
  rw [if_pos hk]
  have hnat : (BitVec.ofNat 32 k).toNat = k := Nat.mod_eq_of_lt (by omega)
  have hpos : (BitVec.ofNat 32 k).toInt = k := by rw [toInt_of_lt (by omega), hnat]
  cases sign with
  | false => exact hpos
  | true =>
    show (-BitVec.ofNat 32 k).toInt = -(k : Int)
    rw [BitVec.toInt_neg, hpos]
    apply Int.bmod_eq_of_le <;> omega

/-! ## Section 4: Truncation -/

theorem scale_single (x : Fields single) : x.scale = max (x.exp : Int) 1 - 150 := by
  have hbias : single.bias = 127 := rfl
  have hbits : (single.fracBits : Int) = 23 := rfl
  unfold Fields.scale
  omega

theorem significand_single {x : Fields single} (h : x.exp ≠ 0) : x.significand = 2 ^ 23 + x.frac :=
  if_neg h

theorem integerPart_small {x : Fields single} (h : x.exp < 127) : x.integerPart = 0 := by
  have hscale := scale_single x
  apply Fields.integerPart_eq_zero
  show x.scale < (-23 : Int)
  omega

theorem integerPart_right {x : Fields single} (hlo : 127 ≤ x.exp) (hhi : x.exp ≤ 150) :
    x.integerPart = (2 ^ 23 + x.frac) / 2 ^ (150 - x.exp) := by
  have hscale := scale_single x
  have hn : (-x.scale).toNat = 150 - x.exp := by omega
  rw [Fields.integerPart_of_nonpos (by omega), significand_single (by omega), hn]

theorem integerPart_left {x : Fields single} (h : 150 < x.exp) :
    x.integerPart = (2 ^ 23 + x.frac) * 2 ^ (x.exp - 150) := by
  have hscale := scale_single x
  have hn : x.scale.toNat = x.exp - 150 := by omega
  rw [Fields.integerPart_of_nonneg (by omega), significand_single (by omega), hn]

theorem le_integerPart {x : Fields single} (h : 158 < x.exp) : 2 ^ 31 ≤ x.integerPart := by
  rw [integerPart_left (by omega)]
  calc 2 ^ 31 ≤ 2 ^ 23 * 2 ^ 9 := by decide
    _ ≤ _ := Nat.mul_le_mul (Nat.le_add_right _ _) (Nat.pow_le_pow_right Nat.two_pos (by omega))

/-- The result, by the fields of the argument. -/
theorem floatFloat2Int_eq (uf : Word) :
    floatFloat2Int uf =
      some (if (singleFields uf).exp = 255 then 0x80000000
        else withSign (singleFields uf).sign (singleFields uf).integerPart) := by
  have hexp := toInt_exp uf
  have hfrac := toNat_frac uf
  have hlt : (singleFields uf).frac < 2 ^ 23 := (singleFields uf).frac_lt
  have hsign : ushr uf 31 = some (if (singleFields uf).sign then 1#32 else 0#32) := by
    rw [← sign_eq]
    rfl
  have hushr (y : Word) : ushr y 23 = some (y >>> 23) := rfl
  have hsshr (y : Word) : sshr y 31 = some (y.sshiftRight 31) := rfl
  have hzeroPart (sign : Bool) : (0 : Word) = withSign sign 0 := by
    cases sign <;> rfl
  unfold floatFloat2Int
  simp only [hsign, hushr, hsshr, Option.bind_eq_bind, Option.bind_some, hexp]
  -- both zeros are tested for first
  by_cases hzero : uf &&& 0x7fffffff = 0
  · have hmod : uf.toNat % 2 ^ 31 = 0 := by
      rw [← toNat_and_low uf 0x7fffffff (m := 31) rfl, hzero]
      rfl
    have hexp0 : (singleFields uf).exp = 0 := by
      show uf.toNat / 2 ^ 23 % 2 ^ 8 = 0
      omega
    rw [if_pos hzero, if_neg (by omega), integerPart_small (by omega), ← hzeroPart]
    rfl
  rw [if_neg hzero]
  by_cases hbig : 158 < (singleFields uf).exp
  · -- out of range, whatever the fraction is
    rw [if_pos (by omega)]
    split
    · rfl
    · unfold withSign
      rw [if_neg (Nat.not_lt_of_le (le_integerPart hbig))]
      rfl
  have h255 : ¬ (singleFields uf).exp = 255 := by omega
  have hfrac24 : (uf &&& 0x007fffff ||| 0x00800000).toNat < 2 ^ 24 := by omega
  rw [if_neg (by omega), if_neg h255]
  -- less than 1 in absolute value
  by_cases hsmall : (singleFields uf).exp < 127
  · rw [if_pos (by omega), integerPart_small hsmall, ← hzeroPart]
    rfl
  rw [if_neg (by omega)]
  -- the binary point is to the right of the significand, or within it
  by_cases hleft : 150 < (singleFields uf).exp
  · rw [if_pos (by omega)]
    obtain ⟨w, hw, hval⟩ := shl_frac hexp hleft (by omega) hfrac24
    rw [hw, Option.bind_some, integerPart_left hleft, ← hfrac, ← hval]
    exact withSign_eq _ w
  · rw [if_neg (by omega)]
    obtain ⟨w, hw, hval⟩ := sshr_frac hexp (by omega) (by omega) hfrac24
    rw [hw, Option.bind_some, integerPart_right (by omega) (by omega), ← hfrac, ← hval]
    exact withSign_eq _ w

theorem isIntOf_withSign {x : Fields single} (h : x.exp ≠ 255) :
    IsIntOf (withSign x.sign x.integerPart) x.datum := by
  have htrunc := x.truncate_value
  rw [Fields.datum_finite h]
  show if -2 ^ 31 ≤ truncate x.value ∧ truncate x.value ≤ 2 ^ 31 - 1 then
      (withSign x.sign x.integerPart).toInt = truncate x.value
    else withSign x.sign x.integerPart = 0x80000000
  by_cases hk : x.integerPart < 2 ^ 31
  · have hrange : -2 ^ 31 ≤ truncate x.value ∧ truncate x.value ≤ 2 ^ 31 - 1 := by
      rw [htrunc]
      split <;> omega
    rw [if_pos hrange, toInt_withSign hk, htrunc]
  · have hsat : withSign x.sign x.integerPart = 0x80000000 := if_neg hk
    rw [hsat]
    split
    · next hrange =>
      -- only -2^31 is still an `int`
      rw [htrunc] at hrange ⊢
      cases hsign : x.sign with
      | false =>
        rw [hsign] at hrange
        have hle : (x.integerPart : Int) ≤ 2 ^ 31 - 1 := hrange.2
        omega
      | true =>
        rw [hsign] at hrange
        have hge : (-2 ^ 31 : Int) ≤ -(x.integerPart : Int) := hrange.1
        have hk : x.integerPart = 2 ^ 31 := by omega
        rw [hk]
        rfl
    · rfl

/-- `floatFloat2Int` truncates: for every pattern it returns what remains of
    the number as an `int`, and every shift is by 0 to 31. -/
theorem float_to_int (uf : Word) :
    ∃ r, floatFloat2Int uf = some r ∧ IsIntOf r (singleFields uf).datum := by
  rw [floatFloat2Int_eq]
  refine ⟨_, rfl, ?_⟩
  by_cases h255 : (singleFields uf).exp = 255
  · rw [if_pos h255, Fields.datum_special h255]
    split <;> rfl
  · rw [if_neg h255]
    exact isIntOf_withSign h255

example : floatFloat2Int 0xc0e00000 = some (-7) := by decide

end DataLab
