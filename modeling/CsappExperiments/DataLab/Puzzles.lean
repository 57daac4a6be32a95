import CsappExperiments.DataLab.Word

/-! # Data Lab: the integer puzzles

    The puzzles of `bits.c` that are compared with a one-line reference of
    `tests.c`. The solutions test for a range or an order by the sign of a sum
    or a difference, which may wrap around.

    `puzzles_eq_tests` says that each of them agrees with its reference, for
    all arguments.
-/

namespace DataLab

/-! ## Section 1: Model -/

/-- `bitXor`. -/
def bitXor (x y : Word) : Word :=
  let nand := ~~~(x &&& y)
  let a := ~~~(x &&& nand)
  let b := ~~~(y &&& nand)
  ~~~(a &&& b)

/-- `isTmax`. -/
def isTmax (x : Word) : Word :=
  let i := x + 1
  let x := x + i
  let x := ~~~x
  let i := lnot i
  let x := x + i
  lnot x

/-- `allOddBits`. -/
def allOddBits (x : Word) : Option Word := do
  let m : Word := 0xAA
  let m := (← shl m 8) ||| m
  let m := (← shl m 8) ||| m
  let m := (← shl m 8) ||| m
  let m := (← shl m 8) ||| m
  return lnot ((x &&& m) ^^^ m)

/-- `negate`. -/
def negate (x : Word) : Word := ~~~x + 1

/-- `isAsciiDigit`. -/
def isAsciiDigit (x : Word) : Option Word := do
  let sign ← shl 0x1 31
  let upperBound := ~~~(sign ||| 0x39)
  let lowerBound : Word := ~~~0x30
  let upperBound := sign &&& (← sshr (upperBound + x) 31)
  let lowerBound := sign &&& (← sshr (lowerBound + 1 + x) 31)
  return lnot (upperBound ||| lowerBound)

/-- `conditional`. -/
def conditional (x y z : Word) : Word :=
  let flag := ~~~(lnot (lnot x)) + 1
  (flag &&& y) ||| (~~~flag &&& z)

/-- `isLessOrEqual`. -/
def isLessOrEqual (x y : Word) : Option Word := do
  -- is 1 when signs are different
  let sign := lnot (← sshr x 31) ^^^ lnot (← sshr y 31)
  let a := sign &&& (← sshr x 31)
  let b := lnot sign &&& lnot (← sshr (y + (~~~x + 1)) 31)
  return a ||| b

/-- `logicalNeg`. -/
def logicalNeg (x : Word) : Option Word := do
  return (← sshr (x ||| (~~~x + 1)) 31) + 1

/-! ## Section 2: The references -/

/-- `test_bitXor`. -/
def testBitXor (x y : Word) : Word := x ^^^ y

/-- `test_isTmax`. -/
def testIsTmax (x : Word) : Word := ofProp (x = 0x7FFFFFFF)

/-- The loop of `test_allOddBits`, from `i` on. -/
def oddBitsLoop (x : Word) (i : Nat) : Option Word :=
  if i < 32 then do
    if x &&& (← shl 1 (BitVec.ofNat 32 i)) = 0 then return 0
    oddBitsLoop x (i + 2)
  else some 1
termination_by 32 - i

/-- `test_allOddBits`. -/
def testAllOddBits (x : Word) : Option Word := oddBitsLoop x 1

/-- `test_negate`. -/
def testNegate (x : Word) : Word := -x

/-- `test_isAsciiDigit`. -/
def testIsAsciiDigit (x : Word) : Word := ofProp (0x30 ≤ x.toInt ∧ x.toInt ≤ 0x39)

/-- `test_conditional`. -/
def testConditional (x y z : Word) : Word := if x ≠ 0 then y else z

/-- `test_isLessOrEqual`. -/
def testIsLessOrEqual (x y : Word) : Word := ofProp (x.toInt ≤ y.toInt)

/-- `test_logicalNeg`. -/
def testLogicalNeg (x : Word) : Word := lnot x

example : isLessOrEqual 0x80000000 0x7fffffff = some 1 := by decide

/-! ## Section 3: Bit by bit -/

theorem bitXor_eq (x y : Word) : bitXor x y = testBitXor x y := by
  apply BitVec.eq_of_getLsbD_eq
  intro i hi
  simp only [bitXor, testBitXor, BitVec.getLsbD_not, BitVec.getLsbD_and, BitVec.getLsbD_xor, hi,
    decide_true, Bool.true_and]
  cases x.getLsbD i <;> cases y.getLsbD i <;> rfl

theorem negate_eq (x : Word) : negate x = testNegate x := (BitVec.neg_eq_not_add x).symm

theorem conditional_eq (x y z : Word) : conditional x y z = testConditional x y z := by
  have hflag : ~~~(lnot (lnot x)) + 1 = if x = 0 then 0#32 else -1#32 := by
    unfold lnot
    by_cases h : x = 0
    · rw [if_pos h, if_pos h]
      rfl
    · rw [if_neg h, if_neg h]
      rfl
  show ((~~~(lnot (lnot x)) + 1 &&& y) ||| (~~~(~~~(lnot (lnot x)) + 1) &&& z)) =
      if x ≠ 0 then y else z
  rw [hflag, mask_select, ite_not]

/-- All bits with an odd number, from the `i`th on, are set. -/
def OddBitsFrom (x : Word) (i : Nat) : Prop := ∀ k, i ≤ k → k < 32 → k % 2 = 1 → x.getLsbD k = true

theorem oddBitsFrom_iff {x : Word} {i : Nat} (hi : i % 2 = 1) (hlt : i < 32) :
    OddBitsFrom x i ↔ x.getLsbD i = true ∧ OddBitsFrom x (i + 2) := by
  constructor
  · intro h
    exact ⟨h i (Nat.le_refl i) hlt hi, fun k hk => h k (by omega)⟩
  · rintro ⟨hbit, hrest⟩ k hk hk32 hodd
    by_cases heq : k = i
    · rw [heq]
      exact hbit
    · exact hrest k (by omega) hk32 hodd

theorem and_bit_eq_zero {x : Word} {i : Nat} (hi : i < 32) :
    x &&& 1#32 <<< i = 0#32 ↔ x.getLsbD i = false := by
  rw [← BitVec.twoPow_eq, BitVec.and_twoPow]
  cases x.getLsbD i with
  | false => simp
  | true =>
    have hne : BitVec.twoPow 32 i ≠ 0#32 := by
      intro h
      have hbit := congrArg (BitVec.getLsbD · i) h
      simp [hi] at hbit
    simpa using hne

/-- The loop of the reference looks at every odd bit from `i` on. -/
theorem oddBitsLoop_eq {x : Word} {i : Nat} (hi : i % 2 = 1) :
    ∃ r, oddBitsLoop x i = some r ∧ (r = 1 ∧ OddBitsFrom x i ∨ r = 0 ∧ ¬ OddBitsFrom x i) := by
  rw [oddBitsLoop]
  by_cases hlt : i < 32
  · have hn : (BitVec.ofNat 32 i).toNat = i := Nat.mod_eq_of_lt (by omega)
    have hshift : shl 1 (BitVec.ofNat 32 i) = some (1#32 <<< i) := by
      unfold shl
      rw [hn, if_pos hlt]
      rfl
    have hround : (do
        if x &&& (← shl 1 (BitVec.ofNat 32 i)) = 0 then return 0
        oddBitsLoop x (i + 2)) =
        if x &&& 1#32 <<< i = 0#32 then some (0 : Word) else oddBitsLoop x (i + 2) := by
      rw [hshift]
      rfl
    have hdec : 32 - (i + 2) < 32 - i := by omega
    rw [if_pos hlt, hround, oddBitsFrom_iff hi hlt]
    -- the loop ends at the first odd bit that is not set
    cases hbit : x.getLsbD i with
    | false =>
      rw [if_pos ((and_bit_eq_zero hlt).mpr hbit)]
      exact ⟨0, rfl, .inr ⟨rfl, fun h => absurd h.1 (by decide)⟩⟩
    | true =>
      have hset : ¬ x &&& 1#32 <<< i = 0#32 := by
        rw [and_bit_eq_zero hlt, hbit]
        decide
      obtain ⟨r, hr, hcases⟩ := oddBitsLoop_eq (x := x) (i := i + 2) (by omega)
      rw [if_neg hset, eq_self, true_and]
      exact ⟨r, hr, hcases⟩
  · rw [if_neg hlt]
    exact ⟨1, rfl, .inl ⟨rfl, fun k hk hk32 => absurd hk32 (by omega)⟩⟩
termination_by 32 - i

/-- The mask has exactly the odd bits. -/
theorem and_mask_eq_iff (x : Word) : x &&& 0xAAAAAAAA#32 = 0xAAAAAAAA#32 ↔ OddBitsFrom x 1 := by
  have hmask : ∀ k, k < 32 → (0xAAAAAAAA#32).getLsbD k = decide (k % 2 = 1) := by decide
  constructor
  · intro h k hk hk32 hodd
    have hbit := congrArg (BitVec.getLsbD · k) h
    simpa [hmask k hk32, hodd] using hbit
  · intro h
    apply BitVec.eq_of_getLsbD_eq
    intro k hk
    rw [BitVec.getLsbD_and, hmask k hk]
    by_cases hodd : k % 2 = 1
    · rw [h k (by omega) hk hodd, Bool.true_and]
    · rw [decide_eq_false hodd, Bool.and_false]

theorem allOddBits_eq (x : Word) : ∃ r, allOddBits x = some r ∧ testAllOddBits x = some r := by
  have hrun : allOddBits x = some (lnot ((x &&& 0xAAAAAAAA#32) ^^^ 0xAAAAAAAA#32)) := rfl
  have hzero : (x &&& 0xAAAAAAAA#32) ^^^ 0xAAAAAAAA#32 = 0 ↔ OddBitsFrom x 1 :=
    BitVec.xor_eq_zero_iff.trans (and_mask_eq_iff x)
  obtain ⟨r, hr, hcases⟩ := oddBitsLoop_eq (x := x) (i := 1) rfl
  refine ⟨r, ?_, hr⟩
  rw [hrun, lnot]
  obtain ⟨rfl, hall⟩ | ⟨rfl, hnot⟩ := hcases
  · rw [if_pos (hzero.mpr hall)]
  · rw [if_neg (mt hzero.mp hnot)]

/-! ## Section 4: By the sign of a sum -/

/-- Twice the largest `int` and one are all bits. That holds of -1 as well,
    which the code takes out by adding 1. -/
theorem isTmax_eq (x : Word) : isTmax x = testIsTmax x := by
  have hlt : x.toNat < 2 ^ 32 := x.isLt
  have hone : (1 : Word).toNat = 1 := rfl
  show lnot (~~~(x + (x + 1)) + lnot (x + 1)) = ofProp (x = 0x7FFFFFFF)
  -- for -1 the sum with its successor is -1 too
  by_cases hminus : x = -1
  · rw [hminus]
    rfl
  · have hnat : x.toNat ≠ 2 ^ 32 - 1 := fun h => hminus (BitVec.eq_of_toNat_eq h)
    have hnext : lnot (x + 1) = 0 := by
      apply if_neg
      intro h
      have hval := congrArg BitVec.toNat h
      rw [BitVec.toNat_add, hone] at hval
      change _ = 0 at hval
      omega
    have hiff : ~~~(x + (x + 1)) = 0 ↔ x = 0x7FFFFFFF := by
      constructor
      · intro h
        have hval := congrArg BitVec.toNat h
        rw [BitVec.toNat_not, BitVec.toNat_add, BitVec.toNat_add, hone] at hval
        change _ = 0 at hval
        apply BitVec.eq_of_toNat_eq
        show x.toNat = 0x7FFFFFFF
        omega
      · intro h
        rw [h]
        rfl
    rw [hnext]
    show lnot (~~~(x + (x + 1)) + 0#32) = _
    rw [BitVec.add_zero]
    unfold lnot ofProp
    simp only [hiff]

/-- `x` is below the upper bound when adding `x` to the rest up to the largest
    `int` does not wrap, and above the lower one when the difference is not
    negative. -/
theorem isAsciiDigit_eq (x : Word) : isAsciiDigit x = some (testIsAsciiDigit x) := by
  have hlt : x.toNat < 2 ^ 32 := x.isLt
  have hrun : isAsciiDigit x =
      some (lnot ((0x80000000#32 &&& (0x7fffffc6#32 + x).sshiftRight 31) |||
      (0x80000000#32 &&& (0xffffffd0#32 + x).sshiftRight 31))) := rfl
  -- each sum sets the sign bit when `x` is on the wrong side of its bound
  have hupper : (0x7fffffc6#32 + x).toNat < 2 ^ 31 ↔ x.toNat ≤ 0x39 ∨ 2 ^ 31 + 58 ≤ x.toNat := by
    rw [BitVec.toNat_add]
    show (0x7fffffc6 + x.toNat) % 2 ^ 32 < 2 ^ 31 ↔ _
    omega
  have hlower : (0xffffffd0#32 + x).toNat < 2 ^ 31 ↔ 0x30 ≤ x.toNat ∧ x.toNat < 2 ^ 31 + 0x30 := by
    rw [BitVec.toNat_add]
    show (0xffffffd0 + x.toNat) % 2 ^ 32 < 2 ^ 31 ↔ _
    omega
  have hdigit : (0x30 ≤ x.toInt ∧ x.toInt ≤ 0x39) ↔ 0x30 ≤ x.toNat ∧ x.toNat ≤ 0x39 := by
    rw [BitVec.toInt_eq_toNat_cond]
    split <;> omega
  rw [hrun, sshiftRight_31, sshiftRight_31]
  unfold testIsAsciiDigit ofProp
  simp only [hupper, hlower, hdigit]
  by_cases hu : x.toNat ≤ 0x39 ∨ 2 ^ 31 + 58 ≤ x.toNat
  · by_cases hl : 0x30 ≤ x.toNat ∧ x.toNat < 2 ^ 31 + 0x30
    · rw [if_pos hu, if_pos hl, if_pos (by omega)]
      rfl
    · rw [if_pos hu, if_neg hl, if_neg (by omega)]
      rfl
  · have hno : ¬ (0x30 ≤ x.toNat ∧ x.toNat ≤ 0x39) := by omega
    rw [if_neg hu, if_neg hno]
    split <;> rfl

/-- The difference of two `int`s of the same sign does not wrap. -/
theorem sign_of_sub {x y : Word} (h : x.toNat < 2 ^ 31 ↔ y.toNat < 2 ^ 31) :
    (y + (~~~x + 1)).toNat < 2 ^ 31 ↔ x.toNat ≤ y.toNat := by
  have hx : x.toNat < 2 ^ 32 := x.isLt
  have hy : y.toNat < 2 ^ 32 := y.isLt
  have hneg : ~~~x + 1 = -x := (BitVec.neg_eq_not_add x).symm
  rw [hneg, ← BitVec.sub_eq_add_neg, BitVec.toNat_sub]
  omega

theorem toInt_le_iff_of_same {x y : Word} (h : x.toNat < 2 ^ 31 ↔ y.toNat < 2 ^ 31) :
    x.toInt ≤ y.toInt ↔ x.toNat ≤ y.toNat := by
  rw [BitVec.toInt_eq_toNat_cond, BitVec.toInt_eq_toNat_cond]
  split <;> split <;> omega

theorem toInt_le_iff_of_differ {x y : Word} (h : ¬ (x.toNat < 2 ^ 31 ↔ y.toNat < 2 ^ 31)) :
    x.toInt ≤ y.toInt ↔ y.toNat < 2 ^ 31 := by
  have hx : x.toNat < 2 ^ 32 := x.isLt
  have hy : y.toNat < 2 ^ 32 := y.isLt
  rw [BitVec.toInt_eq_toNat_cond, BitVec.toInt_eq_toNat_cond]
  split <;> split <;> omega

/-- The signs decide when they differ, and the difference does otherwise. -/
theorem isLessOrEqual_eq (x y : Word) : isLessOrEqual x y = some (testIsLessOrEqual x y) := by
  have hrun : isLessOrEqual x y =
      some (((lnot (x.sshiftRight 31) ^^^ lnot (y.sshiftRight 31)) &&& x.sshiftRight 31) |||
      (lnot (lnot (x.sshiftRight 31) ^^^ lnot (y.sshiftRight 31)) &&&
        lnot ((y + (~~~x + 1)).sshiftRight 31))) := rfl
  rw [hrun, sshiftRight_31, sshiftRight_31, sshiftRight_31]
  unfold testIsLessOrEqual ofProp
  by_cases hsame : x.toNat < 2 ^ 31 ↔ y.toNat < 2 ^ 31
  · simp only [sign_of_sub hsame, toInt_le_iff_of_same hsame, hsame]
    split <;> split <;> rfl
  · by_cases hx : x.toNat < 2 ^ 31
    · have hy : ¬ y.toNat < 2 ^ 31 := fun hy => hsame (iff_of_true hx hy)
      rw [if_pos hx, if_neg hy, if_neg (mt (toInt_le_iff_of_differ hsame).mp hy)]
      split <;> rfl
    · have hy : y.toNat < 2 ^ 31 := by omega
      rw [if_neg hx, if_pos hy, if_pos ((toInt_le_iff_of_differ hsame).mpr hy)]
      split <;> rfl

/-- A number or its opposite has the sign bit, unless it is 0. -/
theorem logicalNeg_eq (x : Word) : logicalNeg x = some (testLogicalNeg x) := by
  have hrun : logicalNeg x = some ((x ||| (~~~x + 1)).sshiftRight 31 + 1) := rfl
  have hneg : ~~~x + 1 = -x := (BitVec.neg_eq_not_add x).symm
  rw [hrun, hneg, sshiftRight_31]
  by_cases h : x = 0
  · rw [h]
    rfl
  · have hne : x.toNat ≠ 0 := fun hzero => h (BitVec.eq_of_toNat_eq hzero)
    have hsign : ¬ (x ||| -x).toNat < 2 ^ 31 := by
      have hleft : x.toNat ≤ x.toNat ||| (-x).toNat := Nat.left_le_or
      have hright : (-x).toNat ≤ x.toNat ||| (-x).toNat := Nat.right_le_or
      rw [BitVec.toNat_neg] at hleft hright
      rw [BitVec.toNat_or, BitVec.toNat_neg]
      omega
    have hlnot : lnot x = 0 := if_neg h
    rw [if_neg hsign, testLogicalNeg, hlnot]
    rfl

/-- Every puzzle agrees with its reference. -/
theorem puzzles_eq_tests (x y z : Word) :
    bitXor x y = testBitXor x y ∧ isTmax x = testIsTmax x ∧
      (∃ r, allOddBits x = some r ∧ testAllOddBits x = some r) ∧ negate x = testNegate x ∧
      isAsciiDigit x = some (testIsAsciiDigit x) ∧ conditional x y z = testConditional x y z ∧
      isLessOrEqual x y = some (testIsLessOrEqual x y) ∧ logicalNeg x = some (testLogicalNeg x) :=
  ⟨bitXor_eq x y, isTmax_eq x, allOddBits_eq x, negate_eq x, isAsciiDigit_eq x,
    conditional_eq x y z,
    isLessOrEqual_eq x y, logicalNeg_eq x⟩

end DataLab
