import CsappExperiments.CacheLab.Cache
import CsappExperiments.Framework.BitLength

/-! # Cache Lab: the products of `int_pow`

    `int_pow` squares its base once more after it has used it for the last
    time, so it can overflow although the power that it returns is an `int`.

    `int_pow_iff` says exactly when no product overflows. The bound depends on
    the number of binary digits of the exponent only.
-/

open CLib BitLength

namespace CacheLab

/-! ## Section 1: The products -/

/-- The values of a signed `int`. -/
def IsInt (x : Int) : Prop := -2 ^ 31 ≤ x ∧ x < 2 ^ 31

/-- The products that the loop of `int_pow` computes, before they are stored. -/
def intPowProducts (result base : Int) (exp : Nat) : List Int :=
  if exp = 0 then []
  else
    (if exp % 2 = 1 then [result * base] else []) ++ base * base ::
      intPowProducts (if exp % 2 = 1 then wrap32 (result * base) else result)
        (wrap32 (base * base)) (exp / 2)
termination_by exp
decreasing_by omega

/-- `int_pow` returns the power, and none of its products overflows. -/
def Exact (base : Int) (exp : Nat) : Prop :=
  intPow base exp = base ^ exp ∧ ∀ p ∈ intPowProducts 1 base exp, IsInt p

/-- The bound on the base, by the number of binary digits of the exponent. -/
def SquaresFit (base : Int) (exp : Nat) : Prop :=
  exp = 0 ∨ exp < 2 ∧ base.natAbs ≤ 46340 ∨ exp < 4 ∧ base.natAbs ≤ 215 ∨
    exp < 8 ∧ base.natAbs ≤ 14 ∨
    exp < 16 ∧ base.natAbs ≤ 3 ∨ base.natAbs ≤ 1

theorem isInt_of_natAbs_lt {x : Int} (h : x.natAbs < 2 ^ 31) : IsInt x := by
  unfold IsInt
  omega

theorem IsInt.wrap32_eq {x : Int} (h : IsInt x) : wrap32 x = x := wrap32_of_range h.1 h.2

/-! ## Section 2: One round -/

theorem forall_products_iff {exp : Nat} (hexp : exp ≠ 0) (result base : Int) :
    (∀ p ∈ intPowProducts result base exp, IsInt p) ↔
      (exp % 2 = 1 → IsInt (result * base)) ∧ IsInt (base * base) ∧
        ∀ p ∈ intPowProducts (if exp % 2 = 1 then result * base else result)
          (base * base) (exp / 2), IsInt p := by
  have hfirst : (∀ p ∈ if exp % 2 = 1 then [result * base] else [], IsInt p) ↔
      (exp % 2 = 1 → IsInt (result * base)) := by
    by_cases hodd : exp % 2 = 1
    · rw [if_pos hodd, List.forall_mem_singleton]
      exact ⟨fun h _ => h, fun h => h hodd⟩
    · rw [if_neg hodd]
      exact iff_of_true (List.forall_mem_nil _) (fun h => absurd h hodd)
  rw [intPowProducts, if_neg hexp, List.forall_mem_append, List.forall_mem_cons, hfirst,
    and_congr_right_iff]
  intro hmul
  rw [and_congr_right_iff]
  intro hsquare
  have hstored : (if exp % 2 = 1 then wrap32 (result * base) else result) =
      if exp % 2 = 1 then result * base else result := by
    split
    · next hodd => exact (hmul hodd).wrap32_eq
    · rfl
  rw [hsquare.wrap32_eq, hstored]

theorem intPowLoop_of_isInt {exp : Nat} (hexp : exp ≠ 0) {result base : Int}
    (hmul : exp % 2 = 1 → IsInt (result * base)) (hsquare : IsInt (base * base)) :
    intPowLoop result base exp =
      intPowLoop (if exp % 2 = 1 then result * base else result) (base * base) (exp / 2) := by
  rw [intPowLoop, if_neg hexp, hsquare.wrap32_eq]
  split
  · next hodd => rw [(hmul hodd).wrap32_eq]
  · rfl

/-! ## Section 3: All rounds -/

/-- When no product overflows, the result is exact. -/
theorem intPowLoop_exact (exp : Nat) :
    ∀ result base : Int, (∀ p ∈ intPowProducts result base exp, IsInt p) →
      intPowLoop result base exp = result * base ^ exp := by
  induction exp using Nat.strongRecOn with
  | _ exp ih =>
    intro result base h
    by_cases hexp : exp = 0
    · rw [intPowLoop, if_pos hexp, hexp, pow_zero, mul_one]
    · obtain ⟨hmul, hsquare, hrest⟩ := (forall_products_iff hexp result base).mp h
      rw [intPowLoop_of_isInt hexp hmul hsquare, ih (exp / 2) (by omega) _ _ hrest, mul_pow_half]

/-- The last square is that of the rounds after the first. -/
theorem last_square_half {exp : Nat} (hexp : exp ≠ 0) (base : Int) :
    (base * base).natAbs ^ 2 ^ (exp / 2).size = base.natAbs ^ 2 ^ exp.size := by
  rw [size_half hexp, Int.natAbs_mul, ← Nat.pow_two, ← Nat.pow_mul, ← Nat.pow_succ']

/-- The last square of the base is the largest product. -/
theorem last_square_lt (exp : Nat) (hexp : exp ≠ 0) :
    ∀ result base : Int, (∀ p ∈ intPowProducts result base exp, IsInt p) →
      base.natAbs ^ 2 ^ exp.size < 2 ^ 31 := by
  induction exp using Nat.strongRecOn with
  | _ exp ih =>
    intro result base h
    obtain ⟨_, hsquare, hrest⟩ := (forall_products_iff hexp result base).mp h
    rw [← last_square_half hexp]
    by_cases hhalf : exp / 2 = 0
    · have hnonneg : 0 ≤ base * base := mul_self_nonneg base
      have hlt : base * base < 2 ^ 31 := hsquare.2
      rw [hhalf]
      show (base * base).natAbs ^ 1 < 2 ^ 31
      rw [Nat.pow_one]
      omega
    · exact ih (exp / 2) (by omega) hhalf _ _ hrest

/-- The bounds on the last square and on the power are the same in every round. -/
theorem products_isInt (exp : Nat) :
    ∀ result base : Int, base.natAbs ^ 2 ^ exp.size < 2 ^ 31 →
      result.natAbs * base.natAbs ^ exp < 2 ^ 31 →
      ∀ p ∈ intPowProducts result base exp, IsInt p := by
  induction exp using Nat.strongRecOn with
  | _ exp ih =>
    intro result base hlast hpow
    by_cases hexp : exp = 0
    · rw [intPowProducts, if_pos hexp]
      exact List.forall_mem_nil _
    rw [forall_products_iff hexp]
    refine ⟨?_, ?_, ih (exp / 2) (by omega) _ _ ?_ ?_⟩
    · intro _
      apply isInt_of_natAbs_lt
      rw [Int.natAbs_mul]
      exact Nat.lt_of_le_of_lt (Nat.mul_le_mul_left _ (Nat.le_self_pow hexp _)) hpow
    · apply isInt_of_natAbs_lt
      rw [Int.natAbs_mul, ← Nat.pow_two]
      apply pow_lt_of_le (by decide) hlast
      rw [size_half hexp, Nat.pow_succ']
      exact Nat.le_mul_of_pos_right 2 (Nat.two_pow_pos _)
    · rwa [last_square_half hexp]
    · have h := congrArg Int.natAbs (mul_pow_half result base exp)
      rw [Int.natAbs_mul, Int.natAbs_pow, Int.natAbs_mul result, Int.natAbs_pow] at h
      rwa [h]

/-! ## Section 4: When the products fit -/

/-- The bound on the base is one on the last square. -/
theorem squaresFit_iff {base : Int} {exp : Nat} (hexp : exp ≠ 0) :
    SquaresFit base exp ↔ base.natAbs ^ 2 ^ exp.size < 2 ^ 31 := by
  have hpos : 0 < exp.size := Nat.size_pos.mpr (Nat.pos_of_ne_zero hexp)
  have hlen (k : Nat) : exp.size ≤ k ↔ exp < 2 ^ k := Nat.size_le
  have h1 := hlen 1
  have h2 := hlen 2
  have h3 := hlen 3
  have h4 := hlen 4
  unfold SquaresFit
  by_cases hlong : 4 < exp.size
  · -- the square has an exponent of at least 32
    have hpow : 2 ^ 5 ≤ 2 ^ exp.size := Nat.pow_le_pow_right Nat.two_pos hlong
    have hlarge : 2 ^ 2 ^ 5 ≤ 2 ^ 2 ^ exp.size := Nat.pow_le_pow_right Nat.two_pos hpow
    rw [pow_lt_iff (c := 1) (by rw [Nat.one_pow]; decide) (Nat.le_trans (by decide) hlarge)]
    omega
  · obtain h | h | h | h : exp.size = 1 ∨ exp.size = 2 ∨ exp.size = 3 ∨ exp.size = 4 := by omega
    · rw [h, pow_lt_iff (c := 46340) (by norm_num) (by norm_num)]
      omega
    · rw [h, pow_lt_iff (c := 215) (by norm_num) (by norm_num)]
      omega
    · rw [h, pow_lt_iff (c := 14) (by norm_num) (by norm_num)]
      omega
    · rw [h, pow_lt_iff (c := 3) (by norm_num) (by norm_num)]
      omega

theorem exact_iff (base : Int) (exp : Nat) :
    Exact base exp ↔ exp = 0 ∨ base.natAbs ^ 2 ^ exp.size < 2 ^ 31 := by
  constructor
  · rintro ⟨_, h⟩
    exact or_iff_not_imp_left.mpr fun hexp => last_square_lt exp hexp 1 base h
  · intro h
    have hproducts : ∀ p ∈ intPowProducts 1 base exp, IsInt p := by
      rcases h with rfl | hlast
      · rw [intPowProducts, if_pos rfl]
        exact List.forall_mem_nil _
      · apply products_isInt exp 1 base hlast
        rw [Int.natAbs_one, Nat.one_mul]
        exact pow_lt_of_le (by decide) hlast (Nat.lt_size_self exp).le
    refine ⟨?_, hproducts⟩
    have hexact := intPowLoop_exact exp 1 base hproducts
    rwa [one_mul] at hexact

/-- `int_pow` is exact and free of overflows exactly within these bounds. -/
theorem int_pow_iff (base : Int) (exp : Nat) : Exact base exp ↔ SquaresFit base exp := by
  rw [exact_iff]
  by_cases hexp : exp = 0
  · exact iff_of_true (.inl hexp) (.inl hexp)
  · rw [squaresFit_iff hexp, or_iff_right hexp]

/-- 65536 is an `int`, but computing it as a power of 2 overflows. -/
theorem int_pow_two_sixteen : IsInt (2 ^ 16) ∧ ¬ Exact 2 16 := by
  constructor
  · exact ⟨by decide, by decide⟩
  · rw [exact_iff]
    decide

end CacheLab
