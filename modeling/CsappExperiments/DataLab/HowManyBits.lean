import CsappExperiments.DataLab.Word
import CsappExperiments.Framework.BitLength
import Mathlib.Order.Bounds.Defs

/-! # Data Lab: `howManyBits`

    The smallest width in which an `int` can be written in two's complement.
    The code folds the negative numbers onto the others and then searches for
    the highest bit: each stage halves the range, by a shift that depends on
    what the stage has found.

    `howManyBits_least` says that the result is the smallest width, and the
    one that the loop of the tests counts.
-/

open BitLength

namespace DataLab

/-! ## Section 1: Model -/

/-- `howManyBits`. -/
def howManyBits (x : Word) : Option Word := do
  let sign ← sshr x 31
  let x := (sign &&& ~~~x) ||| (~~~sign &&& x)
  -- is there a bit among the upper half of what is left?
  let b16 ← shl (lnot (lnot (← sshr x 16))) 4
  let x ← sshr x b16
  let b8 ← shl (lnot (lnot (← sshr x 8))) 3
  let x ← sshr x b8
  let b4 ← shl (lnot (lnot (← sshr x 4))) 2
  let x ← sshr x b4
  let b2 ← shl (lnot (lnot (← sshr x 2))) 1
  let x ← sshr x b2
  let b1 := lnot (lnot (← sshr x 1))
  let x ← sshr x b1
  let b0 := x
  return b16 + b8 + b4 + b2 + b1 + b0 + 1

/-- The loop of `test_howManyBits`. -/
def countBits (a cnt : Word) : Word := if a = 0 then cnt else countBits (a >>> 1) (cnt + 1)
termination_by a.toNat
decreasing_by
  have hne : a.toNat ≠ 0 := fun h => ‹¬ a = 0› (BitVec.eq_of_toNat_eq h)
  rw [BitVec.toNat_ushiftRight, Nat.shiftRight_eq_div_pow]
  omega

/-- `test_howManyBits`. -/
def testHowManyBits (x : Word) : Word :=
  let x := if x.toInt < 0 then -x - 1 else x
  countBits x 0 + 1

/-- Can this number be written in `n` bits? -/
def Fits (x : Int) (n : Nat) : Prop := 1 ≤ n ∧ -2 ^ (n - 1) ≤ x ∧ x ≤ 2 ^ (n - 1) - 1

example : howManyBits 298 = some 10 := by decide

/-! ## Section 2: The search -/

theorem toNat_lnot_lnot (x : Word) : (lnot (lnot x)).toNat = if x.toNat = 0 then 0 else 1 := by
  unfold lnot
  by_cases h : x = 0
  · rw [if_pos h, h]
    rfl
  · have hne : x.toNat ≠ 0 := fun hzero => h (BitVec.eq_of_toNat_eq hzero)
    rw [if_neg h, if_neg hne]
    rfl

/-- One stage. If there is a bit in the upper half of the `2 * k` bits that
    are left, then the lower half is shifted out, and counted. -/
theorem stage {x k j : Word} (hk : k.toNat = 2 ^ j.toNat) (hj : j.toNat < 5) (hx : x.toNat < 2 ^ 31)
    (hfit : x.toNat < 2 ^ (k.toNat + k.toNat)) :
    ∃ w b y, sshr x k = some w ∧ shl (lnot (lnot w)) j = some b ∧ sshr x b = some y ∧
      b.toNat ≤ k.toNat ∧ y.toNat < 2 ^ k.toNat ∧ x.toNat.size = b.toNat + y.toNat.size := by
  have hk32 : k.toNat < 32 := by
    rw [hk]
    show _ < 2 ^ 5
    exact Nat.pow_lt_pow_right Nat.one_lt_two hj
  have hw : sshr x k = some (x.sshiftRight k.toNat) := if_pos hk32
  have hb : shl (lnot (lnot (x.sshiftRight k.toNat))) j =
      some (lnot (lnot (x.sshiftRight k.toNat)) <<< j.toNat) :=
    if_pos (by omega)
  -- the number of places to shift by is `k` if a bit is set above the lower `k`
  have hbval : (lnot (lnot (x.sshiftRight k.toNat)) <<< j.toNat).toNat =
      if x.toNat / 2 ^ k.toNat = 0 then 0 else k.toNat := by
    rw [BitVec.toNat_shiftLeft, toNat_lnot_lnot, toNat_sshiftRight hx, Nat.shiftLeft_eq]
    split
    · rw [Nat.zero_mul]
    · rw [Nat.one_mul, ← hk]
      omega
  generalize lnot (lnot (x.sshiftRight k.toNat)) <<< j.toNat = b at hb hbval
  have hb32 : b.toNat < 32 := by
    split at hbval <;> omega
  refine ⟨_, b, x.sshiftRight b.toNat, hw, hb, if_pos hb32, ?_⟩
  rw [toNat_sshiftRight hx, hbval]
  split
  · next hlow =>
    rw [Nat.pow_zero, Nat.div_one, Nat.zero_add]
    exact ⟨Nat.zero_le _, Nat.lt_of_div_eq_zero (Nat.two_pow_pos _) hlow, rfl⟩
  · next hhigh =>
    refine ⟨Nat.le_refl _, ?_, size_eq_add hhigh⟩
    rw [Nat.div_lt_iff_lt_mul (Nat.two_pow_pos _), ← Nat.pow_add]
    exact hfit

/-- The next step of a computation, when it is known what this one yields. -/
theorem bind_of_eq {α β : Type} {o : Option α} {f : α → Option β} {a : α} {r : Option β}
    (ho : o = some a) (hr : f a = r) :
    (o >>= f) = r := by
  rw [ho]
  exact hr

/-- The number that is searched: a negative one is complemented. -/
def fold (x : Word) : Word := if x.toInt < 0 then ~~~x else x

theorem fold_eq (x : Word) :
    (x.sshiftRight 31 &&& ~~~x) ||| (~~~(x.sshiftRight 31) &&& x) = fold x := by
  unfold fold
  rw [sshiftRight_31, mask_select]
  by_cases h : x.toNat < 2 ^ 31
  · rw [if_pos h, if_neg (Int.not_lt.mpr (toInt_nonneg_iff.mpr h))]
  · rw [if_neg h, if_pos (Int.not_le.mp (mt toInt_nonneg_iff.mp h))]

theorem toInt_fold (x : Word) :
    ((fold x).toNat : Int) = if x.toInt < 0 then -x.toInt - 1 else x.toInt := by
  have hlt : x.toNat < 2 ^ 32 := x.isLt
  have hnot := BitVec.toNat_not (x := x)
  unfold fold
  rw [BitVec.toInt_eq_toNat_cond]
  split <;> split <;> omega

theorem fold_lt (x : Word) : (fold x).toNat < 2 ^ 31 := by
  have hfold := toInt_fold x
  have hlo : -2 ^ 31 ≤ x.toInt := x.le_toInt
  have hhi : x.toInt < 2 ^ 31 := x.toInt_lt
  split at hfold <;> omega

/-- The stages find the length of the folded number. -/
theorem toNat_howManyBits (x : Word) :
    ∃ n, howManyBits x = some n ∧ n.toNat = (fold x).toNat.size + 1 := by
  have hx := fold_lt x
  have hsign : sshr x 31 = some (x.sshiftRight 31) := rfl
  have hlast (w : Word) : shl w 0 = some w := congrArg some (BitVec.shiftLeft_zero w)
  obtain ⟨w16, b16, x16, hw16, hb16, hx16, hle16, hlt16, hsize16⟩ :=
    stage (x := fold x) (k := 16) (j := 4) rfl (by decide) hx (Nat.lt_trans hx (by decide))
  obtain ⟨w8, b8, x8, hw8, hb8, hx8, hle8, hlt8, hsize8⟩ :=
    stage (x := x16) (k := 8) (j := 3) rfl (by decide) (Nat.lt_trans hlt16 (by decide)) hlt16
  obtain ⟨w4, b4, x4, hw4, hb4, hx4, hle4, hlt4, hsize4⟩ :=
    stage (x := x8) (k := 4) (j := 2) rfl (by decide) (Nat.lt_trans hlt8 (by decide)) hlt8
  obtain ⟨w2, b2, x2, hw2, hb2, hx2, hle2, hlt2, hsize2⟩ :=
    stage (x := x4) (k := 2) (j := 1) rfl (by decide) (Nat.lt_trans hlt4 (by decide)) hlt4
  obtain ⟨w1, b1, x1, hw1, hb1, hx1, hle1, hlt1, hsize1⟩ :=
    stage (x := x2) (k := 1) (j := 0) rfl (by decide) (Nat.lt_trans hlt2 (by decide)) hlt2
  obtain rfl : lnot (lnot w1) = b1 := Option.some.inj ((hlast _).symm.trans hb1)
  refine ⟨b16 + b8 + b4 + b2 + lnot (lnot w1) + x1 + 1, ?_, ?_⟩
  · rw [← fold_eq] at hw16 hx16
    refine bind_of_eq hsign (bind_of_eq hw16 (bind_of_eq hb16 (bind_of_eq hx16 ?_)))
    refine bind_of_eq hw8 (bind_of_eq hb8 (bind_of_eq hx8 ?_))
    refine bind_of_eq hw4 (bind_of_eq hb4 (bind_of_eq hx4 ?_))
    refine bind_of_eq hw2 (bind_of_eq hb2 (bind_of_eq hx2 ?_))
    exact bind_of_eq hw1 (bind_of_eq hx1 rfl)
  · have hlt : x1.toNat < 2 := hlt1
    have hsize : x1.toNat.size = x1.toNat := size_le_one hlt
    have h16 : (16 : Word).toNat = 16 := rfl
    have h8 : (8 : Word).toNat = 8 := rfl
    have h4 : (4 : Word).toNat = 4 := rfl
    have h2 : (2 : Word).toNat = 2 := rfl
    have h1 : (1 : Word).toNat = 1 := rfl
    -- no sum wraps around, and each stage has found as much as it counts
    have hsum8 := BitVec.toNat_add_of_lt (x := b16) (y := b8) (by omega)
    have hsum4 := BitVec.toNat_add_of_lt (x := b16 + b8) (y := b4) (by omega)
    have hsum2 := BitVec.toNat_add_of_lt (x := b16 + b8 + b4) (y := b2) (by omega)
    have hsum1 := BitVec.toNat_add_of_lt (x := b16 + b8 + b4 + b2) (y := lnot (lnot w1)) (by omega)
    have hsum0 := BitVec.toNat_add_of_lt (x := b16 + b8 + b4 + b2 + lnot (lnot w1)) (y := x1)
      (by omega)
    have hsum := BitVec.toNat_add_of_lt (x := b16 + b8 + b4 + b2 + lnot (lnot w1) + x1) (y := 1)
      (by omega)
    omega

/-! ## Section 3: The loop of the tests -/

theorem toNat_countBits (a cnt : Word) (hcnt : cnt.toNat + a.toNat.size < 2 ^ 32) :
    (countBits a cnt).toNat = cnt.toNat + a.toNat.size := by
  rw [countBits]
  by_cases h : a = 0
  · rw [if_pos h, h]
    rfl
  · have hne : a.toNat ≠ 0 := fun hzero => h (BitVec.eq_of_toNat_eq hzero)
    have hshift : (a >>> 1).toNat = a.toNat / 2 := by
      rw [BitVec.toNat_ushiftRight, Nat.shiftRight_eq_div_pow, Nat.pow_one]
    have hone : (1 : Word).toNat = 1 := rfl
    have hsize := size_half hne
    have hnext : (cnt + 1).toNat = cnt.toNat + 1 := BitVec.toNat_add_of_lt (by omega)
    have hdec : a.toNat / 2 < a.toNat := by omega
    rw [if_neg h, toNat_countBits (a >>> 1) (cnt + 1) (by rw [hnext, hshift]; omega), hnext, hshift]
    omega
termination_by a.toNat

theorem toNat_testHowManyBits (x : Word) : (testHowManyBits x).toNat = (fold x).toNat.size + 1 := by
  have hsize : (fold x).toNat.size ≤ 31 := Nat.size_le.mpr (fold_lt x)
  have hzero : (0 : Word).toNat = 0 := rfl
  have hone : (1 : Word).toNat = 1 := rfl
  have hfold : (if x.toInt < 0 then -x - 1 else x) = fold x := by
    unfold fold
    split
    · rw [BitVec.neg_eq_not_add]
      exact BitVec.add_sub_cancel _ _
    · rfl
  show (countBits (if x.toInt < 0 then -x - 1 else x) 0 + 1).toNat = _
  rw [hfold, BitVec.toNat_add, toNat_countBits _ _ (by omega), hzero, hone]
  omega

/-! ## Section 4: The smallest width -/

/-- A number can be written in a sign bit and as many bits as it has after
    folding. -/
theorem fits_iff (x : Word) (n : Nat) : Fits x.toInt n ↔ (fold x).toNat.size + 1 ≤ n := by
  have hfold := toInt_fold x
  constructor
  · rintro ⟨hpos, hlo, hhi⟩
    have hlt : ((fold x).toNat : Int) < ((2 ^ (n - 1) : Nat) : Int) := by
      push_cast
      split at hfold <;> omega
    have hsize := Nat.size_le.mpr (Int.ofNat_lt.mp hlt)
    omega
  · intro hn
    have hlt : (((fold x).toNat : Nat) : Int) < ((2 ^ (n - 1) : Nat) : Int) :=
      Int.ofNat_lt.mpr (Nat.size_le.mp (by omega))
    push_cast at hlt
    unfold Fits
    split at hfold
    · exact ⟨by omega, by omega, by omega⟩
    · exact ⟨by omega, by omega, by omega⟩

/-- `howManyBits` is the smallest width of its argument in two's complement,
    and what the loop of the tests counts. -/
theorem howManyBits_least (x : Word) :
    ∃ n, howManyBits x = some n ∧ IsLeast {k | Fits x.toInt k} n.toNat ∧ n = testHowManyBits x := by
  obtain ⟨n, hrun, hn⟩ := toNat_howManyBits x
  refine ⟨n, hrun, ?_, ?_⟩
  · rw [hn]
    exact ⟨(fits_iff x _).mpr (Nat.le_refl _), fun m hm => (fits_iff x m).mp hm⟩
  · exact BitVec.eq_of_toNat_eq (hn.trans (toNat_testHowManyBits x).symm)

end DataLab
