import CsappExperiments.DataLab.FloatScale
import CsappExperiments.Framework.Rounding

/-! # Data Lab: the tests of the floating-point puzzles

    `tests.c` computes what the puzzles should return with `float`s: it doubles
    by a multiplication, converts by a cast, and raises 2 or 0.5 to a power by
    squaring.

    The squaring runs into numbers that are too large or too small, which
    become infinity and 0. Both stay what they are in further products, so
    the result is right for every exponent (`testFloatPower2_eq`). The tests and
    the puzzles then agree on every word, but for the 127 exponents for which
    `floatPower2` overflows (`float_tests_agree`).
-/

open FloatFormat

namespace DataLab

/-! ## Section 1: Model -/

/-- The product of two singles. -/
def mulf (x y : Word) : Word := BitVec.ofNat 32 ((singleFields x).mul (singleFields y))

/-- `(int) f`, as the processor converts: 0x80000000 where there is no such `int`. -/
def toInt32 : Datum → Word
  | .finite _ v =>
    if -2 ^ 31 ≤ truncate v ∧ truncate v ≤ 2 ^ 31 - 1 then BitVec.ofInt 32 (truncate v)
    else 0x80000000
  | .infinite _ => 0x80000000
  | .nan => 0x80000000

/-- `test_floatScale2`. -/
def testFloatScale2 (uf : Word) : Word :=
  -- 2.0f
  let tf := mulf 0x40000000 uf
  if (singleFields uf).isNaN then uf else tf

/-- `test_floatFloat2Int`. -/
def testFloatFloat2Int (uf : Word) : Word := toInt32 (singleFields uf).datum

/-- The loop of `test_floatPower2`. -/
def powerLoop (x result p2 : Word) : Word :=
  if 0 < x.toInt then
    let result := if x &&& 1 ≠ 0 then mulf result p2 else result
    powerLoop (x.sshiftRight 1) result (mulf p2 p2)
  else result
termination_by x.toNat
decreasing_by
  have hpos : 0 < x.toInt := ‹_›
  have hlt : x.toNat < 2 ^ 31 := toInt_nonneg_iff.mp hpos.le
  rw [toInt_of_lt hlt] at hpos
  rw [toNat_sshiftRight hlt]
  omega

/-- `test_floatPower2`. -/
def testFloatPower2 (x : Word) : Word :=
  -- 1.0f, 2.0f and 0.5f
  let result := 0x3f800000
  if x = 0x80000000 then 0
  else if x.toInt < 0 then powerLoop (-x) result 0x3f000000
  else powerLoop x result 0x40000000

/-! ## Section 2: Powers of two -/

/-- The pattern of two to the power of `e`, or of what it is rounded to. -/
def power2 (e : Int) : Nat :=
  if e < -149 then 0
  else if e ≤ -127 then 2 ^ (149 + e).toNat
  else if e ≤ 127 then 2 ^ 23 * (e + 127).toNat
  else 0x7f800000

theorem power2_tiny {e : Int} (h : e < -149) : power2 e = 0 := if_pos h

theorem power2_denormal {e : Int} (hlo : -149 ≤ e) (hhi : e ≤ -127) :
    power2 e = 2 ^ (149 + e).toNat := by
  unfold power2
  rw [if_neg (by omega), if_pos hhi]

theorem power2_normal {e : Int} (hlo : -127 < e) (hhi : e ≤ 127) :
    power2 e = 2 ^ 23 * (e + 127).toNat := by
  unfold power2
  rw [if_neg (by omega), if_neg (by omega), if_pos hhi]

theorem power2_large {e : Int} (h : 127 < e) : power2 e = 0x7f800000 := by
  unfold power2
  rw [if_neg (by omega), if_neg (by omega), if_neg (by omega)]

theorem power2_lt (e : Int) : power2 e < 2 ^ 31 := by
  by_cases htiny : e < -149
  · rw [power2_tiny htiny]
    decide
  by_cases hden : e ≤ -127
  · rw [power2_denormal (by omega) hden]
    exact Nat.pow_lt_pow_right (by decide) (by omega)
  by_cases hnormal : e ≤ 127
  · rw [power2_normal (by omega) hnormal]
    omega
  · rw [power2_large (by omega)]
    decide

/-- The word with this pattern. -/
def power2Word (e : Int) : Word := BitVec.ofNat 32 (power2 e)

theorem toNat_power2Word (e : Int) : (power2Word e).toNat = power2 e :=
  Nat.mod_eq_of_lt (Nat.lt_trans (power2_lt e) (by decide))

/-- Where the power is a number, it has one bit. -/
theorem power2_fields {e : Int} (hlo : -149 ≤ e) (hhi : e ≤ 127) :
    (singleFields (power2Word e)).sign = false ∧ (singleFields (power2Word e)).exp < 255 ∧
      ∃ k : Nat, (singleFields (power2Word e)).significand = 2 ^ k ∧
        k + (singleFields (power2Word e)).scale = e := by
  have hnat := toNat_power2Word e
  by_cases hden : e ≤ -127
  · rw [power2_denormal hlo hden] at hnat
    have hlt : 2 ^ (149 + e).toNat < 2 ^ 23 := Nat.pow_lt_pow_right (by decide) (by omega)
    obtain ⟨hsign, hexp, hfrac⟩ := fields_of_toNat (r := power2Word e) false 0 _ (by decide) hlt
      (by rw [hnat]; exact (Nat.zero_add _).symm)
    refine ⟨hsign, by omega, (149 + e).toNat, ?_, ?_⟩
    · unfold Fields.significand
      rw [if_pos hexp, hfrac]
    · rw [scale_single, hexp]
      omega
  · rw [power2_normal (by omega) hhi] at hnat
    obtain ⟨hsign, hexp, hfrac⟩ := fields_of_toNat (r := power2Word e) false (e + 127).toNat 0
      (by omega) (by decide) (by rw [hnat]; exact (Nat.zero_add _).symm)
    refine ⟨hsign, by omega, 23, ?_, ?_⟩
    · rw [significand_single (by omega), hfrac, Nat.add_zero]
    · rw [scale_single, hexp]
      omega

theorem minScale_single : single.minScale = -149 := rfl

theorem infinity_single : single.infinity = 0x7f800000 := rfl

/-- A significand `n` that fits, at the scale `s`. -/
theorem round_single {m n : Nat} {e s : Int} (hm : m * 2 ^ (e - s).toNat = n * 2 ^ (s - e).toNat)
    (hn : n ≠ 0) (hlt : n < 2 ^ 24) (hs : -149 ≤ s) (hnormal : s ≠ -149 → 2 ^ 23 ≤ n) :
    single.roundMagnitude m e = min ((s + 149).toNat * 2 ^ 23 + n) 0x7f800000 := by
  have hexact := Format.roundMagnitude_exact (F := single) hm hn hlt hs hnormal
  rw [minScale_single, infinity_single, sub_neg_eq_add] at hexact
  exact hexact

/-- A power of two, however it is given, is rounded to its pattern. -/
theorem roundMagnitude_power2 (k : Nat) (e : Int) :
    single.roundMagnitude (2 ^ k) (e - k) = power2 e := by
  by_cases htiny : e < -149
  · -- at most half the least positive number
    have hscale : single.minScale - (e - k) = ((-149 - e + k).toNat : Int) := by
      rw [minScale_single]
      omega
    rw [power2_tiny htiny]
    refine Format.roundMagnitude_tiny hscale ?_
    rw [← Nat.pow_succ']
    exact Nat.pow_le_pow_right Nat.two_pos (by omega)
  -- the significand is 2 ^ p, at the scale s
  have hround : ∀ (p : Nat) (s : Int), p ≤ 23 → p + s = e → -149 ≤ s → (s ≠ -149 → p = 23) →
      single.roundMagnitude (2 ^ k) (e - k) =
        min ((s + 149).toNat * 2 ^ 23 + 2 ^ p) 0x7f800000 := by
    intro p s hp hsum hs hnormal
    have hm : 2 ^ k * 2 ^ (e - k - s).toNat = 2 ^ p * 2 ^ (s - (e - k)).toNat := by
      rw [← Nat.pow_add, ← Nat.pow_add]
      congr 1
      omega
    have hlt : 2 ^ p < 2 ^ 24 := Nat.pow_lt_pow_right (by decide) (Nat.lt_succ_of_le hp)
    refine round_single hm (Nat.two_pow_pos p).ne' hlt hs fun hne => ?_
    rw [hnormal hne]
  by_cases hden : e ≤ -127
  · have hlt : 2 ^ (149 + e).toNat < 2 ^ 23 := Nat.pow_lt_pow_right (by decide) (by omega)
    rw [hround (149 + e).toNat (-149) (by omega) (by omega) le_rfl (fun h => absurd rfl h),
      power2_denormal (by omega) hden]
    simp only [Int.reduceNeg, neg_add_cancel, Int.toNat_zero, Nat.zero_mul, Nat.zero_add]
    exact Nat.min_eq_left (by omega)
  · rw [hround 23 (e - 23) le_rfl (by omega) (by omega) (fun _ => rfl)]
    by_cases hnormal : e ≤ 127
    · rw [power2_normal (by omega) hnormal]
      omega
    · rw [power2_large (by omega)]
      omega

/-! ## Section 3: Products of powers of two -/

theorem not_special {x : Fields single} (h : x.exp < 255) : ¬ x.special :=
  fun hspecial => h.ne hspecial

/-- Zero, the power that is too small. -/
theorem power2_zero {e : Int} (h : e < -149) : power2Word e = 0 := by
  unfold power2Word
  rw [power2_tiny h]
  rfl

theorem power2_infinity {e : Int} (h : 127 < e) : power2Word e = 0x7f800000 := by
  unfold power2Word
  rw [power2_large h]
  rfl

theorem mulf_finite {x y : Word} (hx : (singleFields x).exp < 255)
    (hy : (singleFields y).exp < 255) (hxsign : (singleFields x).sign = false)
    (hysign : (singleFields y).sign = false) :
    mulf x y = BitVec.ofNat 32
      (single.roundMagnitude ((singleFields x).significand * (singleFields y).significand)
      ((singleFields x).scale + (singleFields y).scale)) := by
  unfold mulf
  rw [Fields.mul_finite (not_special hx) (not_special hy), hxsign, hysign]
  simp

/-- A product with 0. -/
theorem mulf_zero {y : Word} (hy : (singleFields y).exp < 255)
    (hysign : (singleFields y).sign = false) :
    mulf 0 y = 0 ∧ mulf y 0 = 0 := by
  have hzero : (singleFields 0).significand = 0 := rfl
  have hexp : (singleFields 0).exp < 255 := by decide
  rw [mulf_finite hexp hy rfl hysign, mulf_finite hy hexp hysign rfl, hzero, Nat.zero_mul,
    Nat.mul_zero,
    Format.roundMagnitude_zero, Format.roundMagnitude_zero]
  exact ⟨rfl, rfl⟩

/-- A product with infinity. -/
theorem mulf_infinity {y : Word} (hy : ¬ (singleFields y).isNaN)
    (hysig : (singleFields y).significand ≠ 0) (hysign : (singleFields y).sign = false) :
    mulf 0x7f800000 y = 0x7f800000 ∧ mulf y 0x7f800000 = 0x7f800000 := by
  have hnan : ¬ (singleFields 0x7f800000).isNaN := by decide
  have hspecial : (singleFields 0x7f800000).special := by decide
  have hsig : (singleFields 0x7f800000).significand ≠ 0 := by decide
  have hsign : (singleFields 0x7f800000).sign = false := by decide
  unfold mulf
  rw [Fields.mul_infinite (not_or.mpr ⟨hnan, hy⟩) (.inl hspecial) (not_or.mpr ⟨hsig, hysig⟩),
    Fields.mul_infinite (not_or.mpr ⟨hy, hnan⟩) (.inr hspecial) (not_or.mpr ⟨hysig, hsig⟩),
      hsign, hysign]
  exact ⟨rfl, rfl⟩

/-- At most 1, so finite. -/
theorem power2_finite {e : Int} (h : e ≤ 127) :
    (singleFields (power2Word e)).exp < 255 ∧ (singleFields (power2Word e)).sign = false := by
  by_cases htiny : e < -149
  · rw [power2_zero htiny]
    decide
  · obtain ⟨hsign, hexp, _⟩ := power2_fields (not_lt.mp htiny) h
    exact ⟨hexp, hsign⟩

/-- Positive. -/
theorem power2_positive {e : Int} (h : -149 ≤ e) :
    ¬ (singleFields (power2Word e)).isNaN ∧ (singleFields (power2Word e)).significand ≠ 0 ∧
      (singleFields (power2Word e)).sign = false := by
  by_cases hlarge : 127 < e
  · rw [power2_infinity hlarge]
    decide
  · obtain ⟨hsign, hexp, k, hsig, _⟩ := power2_fields h (not_lt.mp hlarge)
    refine ⟨fun hnan => not_special hexp hnan.1, ?_, hsign⟩
    rw [hsig]
    exact (Nat.two_pow_pos k).ne'

/-- The exponents are added, also where a power has become 0 or infinity:
    they are both negative or both positive. -/
theorem mulf_power2 {a b : Int} (h : a ≤ 0 ∧ b ≤ 0 ∨ 0 ≤ a ∧ 0 ≤ b) :
    mulf (power2Word a) (power2Word b) = power2Word (a + b) := by
  by_cases hatiny : a < -149
  · obtain ⟨hexp, hsign⟩ := power2_finite (e := b) (by omega)
    rw [power2_zero hatiny, power2_zero (e := a + b) (by omega)]
    exact (mulf_zero hexp hsign).1
  by_cases hbtiny : b < -149
  · obtain ⟨hexp, hsign⟩ := power2_finite (e := a) (by omega)
    rw [power2_zero hbtiny, power2_zero (e := a + b) (by omega)]
    exact (mulf_zero hexp hsign).2
  by_cases halarge : 127 < a
  · obtain ⟨hnan, hsig, hsign⟩ := power2_positive (not_lt.mp hbtiny)
    rw [power2_infinity halarge, power2_infinity (e := a + b) (by omega)]
    exact (mulf_infinity hnan hsig hsign).1
  by_cases hblarge : 127 < b
  · obtain ⟨hnan, hsig, hsign⟩ := power2_positive (not_lt.mp hatiny)
    rw [power2_infinity hblarge, power2_infinity (e := a + b) (by omega)]
    exact (mulf_infinity hnan hsig hsign).2
  -- two numbers: the significands and the scales are multiplied and added
  obtain ⟨hasign, haexp, k, hasig, hascale⟩ := power2_fields (not_lt.mp hatiny) (not_lt.mp halarge)
  obtain ⟨hbsign, hbexp, k', hbsig, hbscale⟩ := power2_fields (not_lt.mp hbtiny) (not_lt.mp hblarge)
  have hscale : (singleFields (power2Word a)).scale + (singleFields (power2Word b)).scale =
      a + b - ((k + k' : Nat) : Int) := by
    push_cast
    omega
  rw [mulf_finite haexp hbexp hasign hbsign, hasig, hbsig, ← Nat.pow_add, hscale,
    roundMagnitude_power2]
  rfl

/-! ## Section 4: `test_floatPower2` -/

/-- The loop multiplies `result` by `p2` to the power of `x`. -/
theorem powerLoop_eq (x : Word) {a b : Int} (hx : x.toNat < 2 ^ 31)
    (h : a ≤ 0 ∧ b ≤ 0 ∨ 0 ≤ a ∧ 0 ≤ b) :
    powerLoop x (power2Word a) (power2Word b) = power2Word (a + b * x.toNat) := by
  have hint := toInt_of_lt hx
  rw [powerLoop]
  by_cases hpos : 0 < x.toInt
  · rw [if_pos hpos]
    have hnext : (x.sshiftRight 1).toNat = x.toNat / 2 := toNat_sshiftRight hx 1
    have hsquare : mulf (power2Word b) (power2Word b) = power2Word (b + b) := mulf_power2 (by omega)
    have hbit : (x &&& 1).toNat = x.toNat % 2 := toNat_and_low x 1 (m := 1) rfl
    have hresult : (if x &&& 1 ≠ 0 then mulf (power2Word a) (power2Word b) else power2Word a) =
        power2Word (a + b * (x.toNat % 2 : Nat)) := by
      by_cases hodd : x &&& 1 = 0
      · have hzero : x.toNat % 2 = 0 := by
          rw [← hbit, hodd]
          rfl
        rw [if_neg (not_not.mpr hodd), hzero, Nat.cast_zero, mul_zero, add_zero]
      · have hone : x.toNat % 2 = 1 := by
          refine (Nat.mod_two_eq_zero_or_one x.toNat).resolve_left fun hzero => hodd ?_
          exact BitVec.eq_of_toNat_eq (hbit.trans hzero)
        rw [if_pos hodd, hone, Nat.cast_one, mul_one, mulf_power2 h]
    have hsigns : a + b * (x.toNat % 2 : Nat) ≤ 0 ∧ b + b ≤ 0 ∨ 0 ≤ a + b * (x.toNat % 2 : Nat) ∧
        0 ≤ b + b := by
      obtain hzero | hone := Nat.mod_two_eq_zero_or_one x.toNat
      · rw [hzero]
        omega
      · rw [hone]
        omega
    have hhalf : x.toNat / 2 < x.toNat := by omega
    dsimp only
    rw [hresult, hsquare, powerLoop_eq (x.sshiftRight 1) (by omega) hsigns, hnext]
    congr 1
    -- x is twice its half and the last bit
    have hdiv : ((x.toNat % 2 : Nat) : Int) + 2 * ((x.toNat / 2 : Nat) : Int) = x.toNat := by omega
    rw [← hdiv]
    ring
  · have hzero : x.toNat = 0 := by omega
    rw [if_neg hpos, hzero, Nat.cast_zero, mul_zero, add_zero]
termination_by x.toNat

/-- `test_floatPower2` is right for every exponent. -/
theorem testFloatPower2_eq (x : Word) : testFloatPower2 x = power2Word x.toInt := by
  have hone : (0x3f800000 : Word) = power2Word 0 := rfl
  have hhalf : (0x3f000000 : Word) = power2Word (-1) := rfl
  have htwo : (0x40000000 : Word) = power2Word 1 := rfl
  unfold testFloatPower2
  dsimp only
  by_cases hmin : x = 0x80000000
  · subst hmin
    rw [if_pos rfl, power2_zero (by decide)]
  rw [if_neg hmin]
  -- other negative numbers have a negation that is positive
  have hneg : x.toInt < 0 → (-x).toNat < 2 ^ 31 ∧ ((-x).toNat : Int) = -x.toInt := by
    intro hlt
    have hne : x.toNat ≠ 2 ^ 31 := fun heq => hmin (BitVec.eq_of_toNat_eq heq)
    have hbound : x.toNat < 2 ^ 32 := x.isLt
    rw [BitVec.toInt_eq_toNat_cond] at hlt ⊢
    rw [BitVec.toNat_neg]
    split at hlt <;> omega
  by_cases hlt : x.toInt < 0
  · obtain ⟨hbound, hval⟩ := hneg hlt
    rw [if_pos hlt, hone, hhalf, powerLoop_eq (-x) hbound (.inl (by decide)), hval]
    congr 1
    omega
  · have hbound : x.toNat < 2 ^ 31 := toInt_nonneg_iff.mp (not_lt.mp hlt)
    rw [if_neg hlt, hone, htwo, powerLoop_eq x hbound (.inr (by decide)), ← toInt_of_lt hbound]
    congr 1
    omega

/-! ## Section 5: The puzzles against their tests -/

theorem eq_power2Word {r : Word} {e : Int} (h : r.toNat = power2 e) : r = power2Word e :=
  BitVec.eq_of_toNat_eq (h.trans (toNat_power2Word e).symm)

/-- Where the biased exponent is an `int`. -/
theorem floatPower2_eq {x : Word} (h : x.toInt ≤ 2 ^ 31 - 128) :
    floatPower2 x = some (power2Word x.toInt) := by
  have hbias : (x + 127).toInt = x.toInt + 127 := by
    rw [toInt_add_bias, if_pos h]
  by_cases hsmall : x.toInt < -149
  · rw [floatPower2_biased (by omega), if_pos (by omega), power2_zero hsmall]
  by_cases hdenormal : x.toInt ≤ -127
  · obtain ⟨r, hrun, hr⟩ := floatPower2_denormal (by omega) hdenormal
    rw [hrun, eq_power2Word (hr.trans (power2_denormal (by omega) hdenormal).symm)]
  by_cases hnormal : x.toInt ≤ 127
  · obtain ⟨r, hrun, hr⟩ := floatPower2_normal (by omega) hnormal
    rw [hrun, eq_power2Word (hr.trans (power2_normal (by omega) hnormal).symm)]
  · rw [floatPower2_biased (by omega), if_neg (by omega), if_pos (by omega),
      power2_infinity (by omega)]

/-- A product with 2, of a number. -/
theorem mulf_two {uf : Word} (h : (singleFields uf).exp < 255) :
    mulf 0x40000000 uf = BitVec.ofNat 32 (2 ^ 31 * (singleFields uf).sign.toNat +
      single.roundMagnitude (2 ^ 23 * (singleFields uf).significand)
        (-22 + (singleFields uf).scale)) := by
  have htwo : (singleFields 0x40000000).exp < 255 := by decide
  have hsig : (singleFields 0x40000000).significand = 2 ^ 23 := rfl
  have hexp : (singleFields 0x40000000).exp = 128 := rfl
  have hscale : (singleFields 0x40000000).scale = -22 := by
    rw [scale_single, hexp]
    rfl
  have hsign : (singleFields 0x40000000).sign = false := rfl
  unfold mulf
  rw [Fields.mul_finite (not_special htwo) (not_special h), hsig, hscale, hsign, Bool.false_xor]
  rfl

/-- Twice a denormal is at the same scale. -/
theorem round_twice_denormal {uf : Word} (h : (singleFields uf).exp = 0) :
    single.roundMagnitude (2 ^ 23 * (singleFields uf).significand) (-22 + (singleFields uf).scale) =
      2 * (singleFields uf).frac := by
  have hlt : (singleFields uf).frac < 2 ^ 23 := (singleFields uf).frac_lt
  have hsig : (singleFields uf).significand = (singleFields uf).frac := if_pos h
  have hscale : (singleFields uf).scale = -149 := by
    rw [scale_single, h]
    rfl
  rw [hsig, hscale]
  by_cases hzero : (singleFields uf).frac = 0
  · rw [hzero, Nat.mul_zero, Nat.mul_zero, Format.roundMagnitude_zero]
  have hm : 2 ^ 23 * (singleFields uf).frac * 2 ^ ((-22 + -149 : Int) - -149).toNat =
      2 * (singleFields uf).frac * 2 ^ ((-149 : Int) - (-22 + -149)).toNat := by
    show 2 ^ 23 * (singleFields uf).frac * 2 ^ 0 = 2 * (singleFields uf).frac * 2 ^ 22
    omega
  rw [round_single hm (by omega) (by omega) le_rfl fun hne => absurd rfl hne]
  show min (0 * 2 ^ 23 + _) 0x7f800000 = _
  omega

/-- Twice a normal number is at the next scale, or infinity after the last. -/
theorem round_twice_normal {uf : Word} (hlo : (singleFields uf).exp ≠ 0)
    (hhi : (singleFields uf).exp < 255) :
    single.roundMagnitude (2 ^ 23 * (singleFields uf).significand) (-22 + (singleFields uf).scale) =
      2 ^ 23 * ((singleFields uf).exp + 1) +
        if (singleFields uf).exp = 254 then 0 else (singleFields uf).frac := by
  have hlt : (singleFields uf).frac < 2 ^ 23 := (singleFields uf).frac_lt
  have hsig := significand_single hlo
  have hscale : (singleFields uf).scale = (singleFields uf).exp - 150 := by
    rw [scale_single]
    omega
  have hup : (-22 + ((singleFields uf).exp - 150 : Int) - ((singleFields uf).exp - 149)).toNat =
      0 := by omega
  have hdown : ((singleFields uf).exp - 149 - (-22 + ((singleFields uf).exp - 150 : Int))).toNat =
      23 := by omega
  have hm : 2 ^ 23 * (2 ^ 23 + (singleFields uf).frac) *
        2 ^ (-22 + ((singleFields uf).exp - 150 : Int) - ((singleFields uf).exp - 149)).toNat =
      (2 ^ 23 + (singleFields uf).frac) *
        2 ^ ((singleFields uf).exp - 149 - (-22 + ((singleFields uf).exp - 150 : Int))).toNat := by
    rw [hup, hdown]
    omega
  have hoffset : ((singleFields uf).exp - 149 + 149 : Int).toNat = (singleFields uf).exp := by omega
  rw [hsig, hscale, round_single hm (by omega) (by omega) (by omega) fun _ =>
    Nat.le_add_right (2 ^ 23) _, hoffset]
  split <;> omega

theorem ofNat_of_toNat {r : Word} {n : Nat} (h : r.toNat = n) : BitVec.ofNat 32 n = r := by
  rw [← h, BitVec.ofNat_toNat, BitVec.setWidth_eq]

/-- Twice an infinity. -/
theorem mulf_two_infinity {uf : Word} (hexp : (singleFields uf).exp = 255)
    (hfrac : (singleFields uf).frac = 0) :
    mulf 0x40000000 uf = uf := by
  have htwo : ¬ (singleFields 0x40000000).isNaN := by decide
  have hsig : (singleFields 0x40000000).significand ≠ 0 := by decide
  have hnan : ¬ (singleFields uf).isNaN := fun h => h.2 hfrac
  have hpos : (singleFields uf).significand ≠ 0 := by
    rw [significand_single (by omega)]
    omega
  have hsign : (singleFields 0x40000000).sign = false := rfl
  have htop : 2 ^ (single.expBits + single.fracBits) = 2 ^ 31 := rfl
  unfold mulf
  rw [Fields.mul_infinite (not_or.mpr ⟨htwo, hnan⟩) (.inr hexp) (not_or.mpr ⟨hsig, hpos⟩), hsign,
    Bool.false_xor,
    htop, infinity_single]
  apply ofNat_of_toNat
  rw [toNat_eq uf, hexp, hfrac]
  omega

theorem floatScale2_eq (uf : Word) : floatScale2 uf = some (testFloatScale2 uf) := by
  have hexp : (singleFields uf).exp < 2 ^ 8 := (singleFields uf).exp_lt
  unfold testFloatScale2
  dsimp only
  by_cases hspecial : (singleFields uf).exp = 255
  · rw [floatScale2_special hspecial]
    by_cases hfrac : (singleFields uf).frac = 0
    · rw [if_neg fun hnan => hnan.2 hfrac, mulf_two_infinity hspecial hfrac]
    · rw [if_pos ⟨hspecial, hfrac⟩]
  have hfinite : (singleFields uf).exp < 255 := by omega
  rw [if_neg fun hnan => not_special hfinite hnan.1, mulf_two hfinite]
  by_cases hdenormal : (singleFields uf).exp = 0
  · obtain ⟨r, hrun, hr⟩ := floatScale2_denormal hdenormal
    rw [hrun, round_twice_denormal hdenormal, ofNat_of_toNat hr]
  · obtain ⟨r, hrun, hr⟩ := floatScale2_normal hdenormal hfinite
    rw [hrun, round_twice_normal hdenormal hfinite, ← Nat.add_assoc, ofNat_of_toNat hr]

/-- There is one such `int`. -/
theorem IsIntOf.eq {r : Word} {d : Datum} (h : IsIntOf r d) : r = toInt32 d := by
  cases d with
  | finite sign v =>
    have hint : if -2 ^ 31 ≤ truncate v ∧ truncate v ≤ 2 ^ 31 - 1 then r.toInt = truncate v
        else r = 0x80000000 := h
    show r = if -2 ^ 31 ≤ truncate v ∧ truncate v ≤ 2 ^ 31 - 1 then BitVec.ofInt 32 (truncate v)
        else 0x80000000
    split at hint
    · next hrange => rw [if_pos hrange, ← hint, BitVec.ofInt_toInt]
    · next hrange => rw [if_neg hrange, hint]
  | infinite | nan => exact h

theorem floatFloat2Int_eq_test (uf : Word) : floatFloat2Int uf = some (testFloatFloat2Int uf) := by
  rw [floatFloat2Int_eq]
  congr 1
  refine IsIntOf.eq ?_
  by_cases h255 : (singleFields uf).exp = 255
  · rw [if_pos h255, Fields.datum_special h255]
    split <;> rfl
  · rw [if_neg h255]
    exact isIntOf_withSign h255

/-- The tests of the floating-point puzzles say what the puzzles return, for
    every word, except where `floatPower2` adds the bias beyond the largest `int`;
    `test_floatPower2` is right there too. -/
theorem float_tests_agree (x : Word) :
    floatScale2 x = some (testFloatScale2 x) ∧ floatFloat2Int x = some (testFloatFloat2Int x) ∧
      IsPower2 (testFloatPower2 x) x.toInt ∧
      (floatPower2 x = some (testFloatPower2 x) ↔ x.toInt ≤ 2 ^ 31 - 128) := by
  have hpower : IsPower2 (testFloatPower2 x) x.toInt := by
    rw [testFloatPower2_eq]
    -- too small, denormal, normal or too large
    by_cases htiny : x.toInt < -149
    · rw [power2_zero htiny]
      unfold IsPower2
      rw [if_pos htiny]
    by_cases hdenormal : x.toInt ≤ -127
    · exact isPower2_denormal (by omega) hdenormal
        ((toNat_power2Word _).trans (power2_denormal (by omega) hdenormal))
    by_cases hnormal : x.toInt ≤ 127
    · exact isPower2_normal (by omega) hnormal
        ((toNat_power2Word _).trans (power2_normal (by omega) hnormal))
    · rw [power2_infinity (by omega)]
      unfold IsPower2
      rw [if_neg htiny, if_neg hnormal]
  refine ⟨floatScale2_eq x, floatFloat2Int_eq_test x, hpower, ?_, ?_⟩
  · intro heq
    by_contra h
    rw [floatPower2_wraps h, testFloatPower2_eq, power2_infinity (by omega)] at heq
    exact absurd (Option.some.inj heq) (by decide)
  · intro h
    rw [floatPower2_eq h, testFloatPower2_eq]

end DataLab
