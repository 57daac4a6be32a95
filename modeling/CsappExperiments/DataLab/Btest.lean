import CsappExperiments.CLib
import CsappExperiments.DataLab.FloatTests
import CsappExperiments.DataLab.HowManyBits
import CsappExperiments.DataLab.Puzzles
import Mathlib.Algebra.Order.BigOperators.Group.List

/-! # Data Lab: btest

    `btest` calls every puzzle and its test with the same arguments, and gives
    the points for it when no result differs. For one argument it makes a list
    of values, near the ends of the range and near zero, and some at random;
    for more arguments it takes all combinations, and stops at the first
    difference.

    `testFunction_first` says what this comes to, for any puzzle. The puzzles
    here get full marks for any random values (`btest_points`): the one that is
    wrong for some arguments is never given them, unless by the option `-1`.

    Random values are a parameter, `none` is undefined behaviour, and the
    timeout is left out.
-/

open CLib

namespace DataLab

/-! ## Section 1: Model -/

/-- `test_rec`. A call with another number of arguments is undefined. -/
structure TestRec where
  name : CStr
  solution : List Word → Option Word
  test : List Word → Option Word
  args : Nat
  rating : Int
  argRanges : List (Int × Int)

/-- The options. -/
structure Config where
  grade : Bool
  testFname : Option CStr
  hasArg : Nat → Bool
  argval : Nat → Word
  globalRating : Int

def TEST_RANGE : Nat := 500000

def MAX_TEST_VALS : Nat := 13 * TEST_RANGE

/-- The values for an argument that is the pattern of a `float`. -/
def floatVals (testRange : Nat) : List Word :=
  let smallestNorm : Word := 0x00800000
  let one : Word := 0x3f800000
  let largestNorm : Word := 0x7f000000
  let inf : Word := 0x7f800000
  let nan : Word := 0x7fc00000
  let sign : Word := 0x80000000
  ((List.range (min testRange (2 ^ 23))).flatMap fun k =>
    let i := BitVec.ofNat 32 k
    [i, sign ||| i, smallestNorm + i, smallestNorm - i, sign ||| (smallestNorm + i),
      sign ||| (smallestNorm - i),
      one + i, one - i, sign ||| (one + i), sign ||| (one - i), largestNorm - i,
        sign ||| (largestNorm - i)]) ++
    [inf, sign ||| inf, nan, sign ||| nan]

/-- All values of the range. -/
def allVals (lo hi : Int) : List Word :=
  (List.range (hi + 1 - lo).toNat).map fun (k : Nat) => BitVec.ofInt 32 (lo + k)

/-- One round of the loop that samples: near the ends of the range, near zero,
    and a random value. -/
def sampleRound (random : Nat → Word) (lo hi : Int) (i : Nat) : List Word :=
  [BitVec.ofInt 32 (lo + i), BitVec.ofInt 32 (hi - i)] ++
    (if lo ≤ i ∧ i ≤ hi then [BitVec.ofInt 32 i] else []) ++
    (if lo ≤ -(i : Int) ∧ -(i : Int) ≤ hi then [BitVec.ofInt 32 (-i)] else []) ++ [random i]

def sampleVals (random : Nat → Word) (lo hi : Int) (testRange : Nat) : List Word :=
  (List.range testRange).flatMap (sampleRound random lo hi)

/-- `gen_vals`, for a range of `int`s. The array has room for `MAX_TEST_VALS`. -/
def genVals (cfg : Config) (random : Nat → Word) (lo hi : Int) (testRange arg : Nat) :
    Option (List Word) :=
  let stored (vals : List Word) := if vals.length ≤ MAX_TEST_VALS then some vals else none
  if cfg.hasArg arg then some [cfg.argval arg]
  else if lo = 1 ∧ hi = 1 then stored (floatVals testRange)
  else if hi - MAX_TEST_VALS < -2 ^ 31 then none
  else if hi - MAX_TEST_VALS ≤ lo then
    -- the counter goes one beyond the last value
    if hi = 2 ^ 31 - 1 then none else stored (allVals lo hi)
  else stored (sampleVals random lo hi testRange)

/-- The square root and the cube root of `TEST_RANGE`, as `pow` gives them. -/
def argTestRange (args : Nat) : Nat := if args = 1 then TEST_RANGE else if args = 2 then 707 else 79

/-- A difference that is printed: the arguments, the result and what it should be. -/
structure Failure where
  args : List Word
  r : Word
  rt : Word
  deriving DecidableEq

/-- `test_0_arg` to `test_3_arg`: the number of errors, and what is printed. -/
def testArgs (cfg : Config) (t : TestRec) (args : List Word) : Option (Nat × List Failure) := do
  let r ← t.solution args
  let rt ← t.test args
  return if r ≠ rt then (1, if cfg.grade then [] else [⟨args, r, rt⟩]) else (0, [])

/-- A loop that stops when there is an error. -/
def firstError {α : Type} (body : α → Option (Nat × List Failure)) :
    List α → Option (Nat × List Failure)
  | [] => some (0, [])
  | a :: as => do
    let (errors, report) ← body a
    if errors ≠ 0 then return (errors, report)
    firstError body as

/-- The loops over the values of the arguments, one in the other. -/
def testLoop (cfg : Config) (t : TestRec) :
    List (List Word) → List Word → Option (Nat × List Failure)
  | [], args => testArgs cfg t args
  | vals :: rest, args => firstError (fun v => testLoop cfg t rest (args ++ [v])) vals

/-- The values for every argument. `random i k` is the value number `k` for argument `i`. -/
def argVals (cfg : Config) (random : Nat → Nat → Word) (t : TestRec) : Option (List (List Word)) :=
  (t.argRanges.take t.args).zipIdx.mapM fun ((lo, hi), i) =>
    genVals cfg (random i) lo hi (argTestRange t.args) i

/-- `test_function`. -/
def testFunction (cfg : Config) (random : Nat → Nat → Word) (t : TestRec) :
    Option (Nat × List Failure) := do
  let vals ← argVals cfg random t
  testLoop cfg t vals []

/-- What `run_tests` adds up, and the lines that it prints. -/
structure Score where
  errors : Nat
  points : Int
  maxPoints : Int
  lines : List (Int × Int × Nat × CStr)
  reports : List (List Failure)

/-- Is the puzzle tested? -/
def Config.selects (cfg : Config) (name : CStr) : Prop :=
  cfg.testFname = none ∨ cfg.testFname = some name

instance (cfg : Config) (name : CStr) : Decidable (cfg.selects name) :=
  inferInstanceAs (Decidable (_ ∨ _))

/-- The points for a puzzle. -/
def Config.weight (cfg : Config) (t : TestRec) : Int :=
  if cfg.globalRating ≠ 0 then cfg.globalRating else t.rating

/-- The loop of `run_tests`, from puzzle number `i` on. -/
def runTestsFrom (cfg : Config) (random : Nat → Nat → Nat → Word) (i : Nat) (s : Score) :
    List TestRec → Option Score
  | [] => some s
  | t :: ts =>
    if cfg.selects t.name then do
      let rating := cfg.weight t
      let (terrors, report) ← testFunction cfg (random i) t
      let tpoints := if terrors = 0 then rating else 0
      runTestsFrom cfg random (i + 1)
        { errors := s.errors + terrors
          points := s.points + tpoints
          maxPoints := s.maxPoints + rating
          lines := s.lines ++
            if cfg.grade ∨ terrors < 1 then [(tpoints, rating, terrors, t.name)] else []
          reports := s.reports ++ [report] } ts
    else runTestsFrom cfg random (i + 1) s ts

/-- `run_tests`. -/
def runTests (cfg : Config) (random : Nat → Nat → Nat → Word) (testSet : List TestRec) :
    Option Score :=
  runTestsFrom cfg random 0 ⟨0, 0, 0, [], []⟩ testSet

/-! ### The test set -/

/-- `tmin`. -/
def tmin : Option Word := shl 1 31

/-- `test_tmin`. -/
def testTmin : Word := 0x80000000

def call0 (f : Option Word) : List Word → Option Word
  | [] => f
  | _ => none

def call1 (f : Word → Option Word) : List Word → Option Word
  | [x] => f x
  | _ => none

def call2 (f : Word → Word → Option Word) : List Word → Option Word
  | [x, y] => f x y
  | _ => none

def call3 (f : Word → Word → Word → Option Word) : List Word → Option Word
  | [x, y, z] => f x y z
  | _ => none

/-- `{TMin, TMax}` for three arguments. -/
def ints : List (Int × Int) := List.replicate 3 (-2 ^ 31, 2 ^ 31 - 1)

/-- The range that stands for patterns of `float`s. -/
def floats : List (Int × Int) := List.replicate 3 (1, 1)

def testSet : List TestRec :=
  [⟨"bitXor".toList, call2 (some <| bitXor · ·), call2 (some <| testBitXor · ·), 2, 1, ints⟩,
    ⟨"tmin".toList, call0 tmin, call0 (some testTmin), 0, 1, ints⟩,
    ⟨"isTmax".toList, call1 (some <| isTmax ·), call1 (some <| testIsTmax ·), 1, 1, ints⟩,
    ⟨"allOddBits".toList, call1 allOddBits, call1 testAllOddBits, 1, 2, ints⟩,
    ⟨"negate".toList, call1 (some <| negate ·), call1 (some <| testNegate ·), 1, 2, ints⟩,
    ⟨"isAsciiDigit".toList, call1 isAsciiDigit, call1 (some <| testIsAsciiDigit ·), 1, 3, ints⟩,
    ⟨"conditional".toList, call3 (some <| conditional · · ·), call3 (some <| testConditional · · ·),
      3, 3, ints⟩,
    ⟨"isLessOrEqual".toList, call2 isLessOrEqual, call2 (some <| testIsLessOrEqual · ·),
      2, 3, ints⟩,
    ⟨"logicalNeg".toList, call1 logicalNeg, call1 (some <| testLogicalNeg ·), 1, 4, ints⟩,
    ⟨"howManyBits".toList, call1 howManyBits, call1 (some <| testHowManyBits ·), 1, 4, ints⟩,
    ⟨"floatScale2".toList, call1 floatScale2, call1 (some <| testFloatScale2 ·), 1, 4, floats⟩,
    ⟨"floatFloat2Int".toList, call1 floatFloat2Int, call1 (some <| testFloatFloat2Int ·), 1,
      4, floats⟩,
    ⟨"floatPower2".toList, call1 floatPower2, call1 (some <| testFloatPower2 ·), 1, 4, floats⟩]

/-! ## Section 2: The first difference -/

/-- All combinations, in the order of the loops. -/
def combinations : List (List Word) → List (List Word)
  | [] => [[]]
  | vals :: rest => vals.flatMap fun v => (combinations rest).map (v :: ·)

theorem mem_combinations {vals : List (List Word)} {args : List Word} :
    args ∈ combinations vals ↔ List.Forall₂ (· ∈ ·) args vals := by
  induction vals generalizing args with
  | nil => simp [combinations]
  | cons vs rest ih =>
    simp only [combinations, List.mem_flatMap, List.mem_map, ih]
    constructor
    · rintro ⟨v, hv, as, has, rfl⟩
      exact .cons hv has
    · rintro (_ | ⟨hv, has⟩)
      exact ⟨_, hv, _, has, rfl⟩

section FirstError

variable {α β : Type} (body : α → Option (Nat × List Failure))

theorem firstError_cons (a : α) (as : List α) :
    firstError body (a :: as) =
      (body a).bind fun (errors, report) =>
        if errors ≠ 0 then some (errors, report) else firstError body as := rfl

theorem firstError_append (as bs : List α) :
    firstError body (as ++ bs) =
      (firstError body as).bind fun (errors, report) =>
        if errors ≠ 0 then some (errors, report) else firstError body bs := by
  induction as with
  | nil => rfl
  | cons a as ih =>
    rw [List.cons_append, firstError_cons, firstError_cons, ih, Option.bind_assoc]
    congr 1
    funext ⟨errors, report⟩
    by_cases h : errors = 0
    · simp [h]
    · simp [h]

theorem firstError_map (g : β → α) (bs : List β) :
    firstError body (bs.map g) = firstError (fun b => body (g b)) bs := by
  induction bs with
  | nil => rfl
  | cons b bs ih => rw [List.map_cons, firstError_cons, firstError_cons, ih]

/-- A loop in a loop is one loop. -/
theorem firstError_flatMap (f : β → List α) (bs : List β) :
    firstError body (bs.flatMap f) = firstError (fun b => firstError body (f b)) bs := by
  induction bs with
  | nil => rfl
  | cons b bs ih => rw [List.flatMap_cons, firstError_append, firstError_cons, ih]

/-- Either nothing goes wrong, or the first thing that does is reported. -/
theorem firstError_cases {body : α → Option (Nat × List Failure)} {as : List α}
    (h : ∀ a ∈ as, body a = some (0, []) ∨ ∃ report, body a = some (1, report)) :
    (∀ a ∈ as, body a = some (0, [])) ∧ firstError body as = some (0, []) ∨
      ∃ before a after report, as = before ++ a :: after ∧ (∀ b ∈ before, body b = some (0, [])) ∧
        body a = some (1, report) ∧ firstError body as = some (1, report) := by
  induction as with
  | nil => exact .inl ⟨List.forall_mem_nil _, rfl⟩
  | cons a as ih =>
    rw [firstError_cons]
    obtain hzero | ⟨report, hone⟩ := h a List.mem_cons_self
    · rw [hzero]
      obtain ⟨hall, hrun⟩ | ⟨before, c, after, report, has, hbefore, hc, hrun⟩ :=
        ih fun b hb => h b (List.mem_cons_of_mem a hb)
      · exact .inl ⟨List.forall_mem_cons.mpr ⟨hzero, hall⟩, hrun⟩
      · refine .inr ⟨a :: before, c, after, report, ?_,
          List.forall_mem_cons.mpr ⟨hzero, hbefore⟩, hc, hrun⟩
        rw [has, List.cons_append]
    · rw [hone]
      exact .inr ⟨[], a, as, report, rfl, List.forall_mem_nil _, hone, rfl⟩

end FirstError

theorem testArgs_agree (cfg : Config) {t : TestRec} {args : List Word} {r : Word}
    (hr : t.solution args = some r) (hrt : t.test args = some r) :
    testArgs cfg t args = some (0, []) := by
  unfold testArgs
  rw [hr, hrt]
  exact congrArg some (if_neg (not_not.mpr rfl))

theorem testArgs_differ (cfg : Config) {t : TestRec} {args : List Word} {r rt : Word}
    (hr : t.solution args = some r) (hrt : t.test args = some rt) (hne : r ≠ rt) :
    testArgs cfg t args = some (1, if cfg.grade then [] else [⟨args, r, rt⟩]) := by
  unfold testArgs
  rw [hr, hrt]
  exact congrArg some (if_pos hne)

theorem testLoop_eq (cfg : Config) (t : TestRec) (vals : List (List Word)) (args : List Word) :
    testLoop cfg t vals args =
      firstError (fun tail => testArgs cfg t (args ++ tail)) (combinations vals) := by
  induction vals generalizing args with
  | nil =>
    rw [testLoop, combinations, firstError_cons, List.append_nil, testArgs]
    cases t.solution args with
    | none => rfl
    | some r =>
      cases t.test args with
      | none => rfl
      | some rt =>
        by_cases h : r = rt
        · simp [h, firstError]
        · simp [h]
  | cons vs rest ih =>
    rw [testLoop, combinations, firstError_flatMap]
    congr 1
    funext v
    rw [ih, firstError_map]
    simp only [List.append_assoc, List.cons_append, List.nil_append]

theorem testFunction_eq {cfg : Config} {random : Nat → Nat → Word} {t : TestRec}
    {vals : List (List Word)} (hvals : argVals cfg random t = some vals) :
    testFunction cfg random t = firstError (testArgs cfg t) (combinations vals) := by
  unfold testFunction
  rw [hvals]
  exact testLoop_eq cfg t vals []

theorem argTestRange_le (args : Nat) : argTestRange args ≤ TEST_RANGE := by
  unfold argTestRange TEST_RANGE
  split_ifs <;> omega

theorem length_sampleVals (random : Nat → Word) (lo hi : Int) (testRange : Nat) :
    (sampleVals random lo hi testRange).length ≤ 5 * testRange := by
  have hround : ∀ n ∈ (List.range testRange).map fun (k : Nat) =>
      (sampleRound random lo hi k).length, n ≤ 5 := by
    intro n hn
    obtain ⟨k, -, rfl⟩ := List.mem_map.mp hn
    unfold sampleRound
    split_ifs <;> simp
  have hsum := List.sum_le_card_nsmul _ 5 hround
  rw [List.length_map, List.length_range, nsmul_eq_mul, Nat.cast_id, Nat.mul_comm] at hsum
  unfold sampleVals
  rw [List.length_flatMap]
  exact hsum

theorem toInt_ofInt_of_range {x : Int} (hlo : -2 ^ 31 ≤ x) (hhi : x ≤ 2 ^ 31 - 1) :
    (BitVec.ofInt 32 x).toInt = x := by
  apply BitVec.toInt_ofInt_eq_self (by decide)
  · exact hlo
  · exact Int.lt_of_le_sub_one hhi

theorem mem_allVals {lo hi : Int} {v : Word} :
    v ∈ allVals lo hi ↔ ∃ x : Int, lo ≤ x ∧ x ≤ hi ∧ BitVec.ofInt 32 x = v := by
  unfold allVals
  simp only [List.mem_map, List.mem_range]
  constructor
  · rintro ⟨k, hk, rfl⟩
    exact ⟨lo + k, by omega, by omega, rfl⟩
  · rintro ⟨x, hlo, hhi, rfl⟩
    refine ⟨(x - lo).toNat, by omega, ?_⟩
    congr 1
    omega

theorem mem_sampleVals {random : Nat → Word} {lo hi : Int} {testRange : Nat} {v : Word} :
    v ∈ sampleVals random lo hi testRange ↔ ∃ k < testRange,
      v = BitVec.ofInt 32 (lo + k) ∨ v = BitVec.ofInt 32 (hi - k) ∨
      (lo ≤ (k : Int) ∧ (k : Int) ≤ hi) ∧ v = BitVec.ofInt 32 k ∨
      (lo ≤ -(k : Int) ∧ -(k : Int) ≤ hi) ∧ v = BitVec.ofInt 32 (-k) ∨ v = random k := by
  simp [sampleVals, sampleRound, List.mem_flatMap]

theorem length_floatVals (testRange : Nat) :
    (floatVals testRange).length = 12 * min testRange (2 ^ 23) + 4 := by
  unfold floatVals
  simp [List.length_flatMap, Nat.mul_comm]

theorem length_allVals (lo hi : Int) : (allVals lo hi).length = (hi + 1 - lo).toNat := by
  simp [allVals]

/-- What is left of `gen_vals` for a range of `int`s, without an option. -/
theorem genVals_ints {cfg : Config} {random : Nat → Word} {lo hi : Int} {testRange arg : Nat}
    (hfree : cfg.hasArg arg = false) (hints : ¬ (lo = 1 ∧ hi = 1))
    (htest : testRange ≤ TEST_RANGE) :
    genVals cfg random lo hi testRange arg =
      if hi - MAX_TEST_VALS < -2 ^ 31 then none
      else if hi - MAX_TEST_VALS ≤ lo then
        if hi = 2 ^ 31 - 1 ∨ hi - lo = MAX_TEST_VALS then none else some (allVals lo hi)
      else some (sampleVals random lo hi testRange) := by
  have hopt : ¬ cfg.hasArg arg = true := by
    rw [hfree]
    exact Bool.false_ne_true
  have hsample := length_sampleVals random lo hi testRange
  have hall := length_allVals lo hi
  unfold TEST_RANGE at htest
  unfold genVals MAX_TEST_VALS TEST_RANGE
  dsimp only
  rw [if_neg hopt, if_neg hints]
  by_cases hbelow : hi - ((13 * 500000 : Nat) : Int) < -2 ^ 31
  · rw [if_pos hbelow, if_pos hbelow]
  rw [if_neg hbelow, if_neg hbelow]
  by_cases hsmall : hi - ((13 * 500000 : Nat) : Int) ≤ lo
  · rw [if_pos hsmall, if_pos hsmall]
    by_cases hmax : hi = 2 ^ 31 - 1
    · rw [if_pos hmax, if_pos (.inl hmax)]
    rw [if_neg hmax]
    -- the test of the code is `≤`, where there is room for one value less
    by_cases hfull : hi - lo = ((13 * 500000 : Nat) : Int)
    · have hlength : ¬ (allVals lo hi).length ≤ 13 * 500000 := by omega
      rw [if_neg hlength, if_pos (.inr hfull)]
    · have hlength : (allVals lo hi).length ≤ 13 * 500000 := by omega
      rw [if_pos hlength, if_neg (not_or.mpr ⟨hmax, hfull⟩)]
  · have hlength : (sampleVals random lo hi testRange).length ≤ 13 * 500000 := by omega
    rw [if_neg hsmall, if_neg hsmall, if_pos hlength]

theorem mapM_eq_some_iff {α β : Type} {f : α → Option β} {as : List α} {bs : List β} :
    as.mapM f = some bs ↔ List.Forall₂ (fun a b => f a = some b) as bs := by
  constructor
  · intro h
    induction as generalizing bs with
    | nil =>
      obtain rfl := Option.some.inj h
      exact .nil
    | cons a as ih =>
      rw [List.mapM_cons] at h
      obtain ⟨b, hb, h⟩ := Option.bind_eq_some_iff.mp h
      obtain ⟨bs', hbs, h⟩ := Option.bind_eq_some_iff.mp h
      obtain rfl := Option.some.inj h
      exact .cons hb (ih hbs)
  · intro h
    induction h with
    | nil => rfl
    | cons hab _ ih =>
      rw [List.mapM_cons, hab, ih]
      rfl

theorem exists_forall₂ {α β : Type} {R : α → β → Prop} {as : List α} (h : ∀ a ∈ as, ∃ b, R a b) :
    ∃ bs, List.Forall₂ R as bs := by
  induction as with
  | nil => exact ⟨[], .nil⟩
  | cons a as ih =>
    obtain ⟨⟨b, hb⟩, has⟩ := List.forall_mem_cons.mp h
    obtain ⟨bs, hbs⟩ := ih has
    exact ⟨b :: bs, .cons hb hbs⟩

/-- Both give the same result. -/
def TestRec.Agrees (t : TestRec) (args : List Word) : Prop :=
  ∃ r, t.solution args = some r ∧ t.test args = some r

theorem testFunction_agrees {cfg : Config} {random : Nat → Nat → Word} {t : TestRec}
    {vals : List (List Word)} (hvals : argVals cfg random t = some vals)
    (h : ∀ args ∈ combinations vals, t.Agrees args) :
    testFunction cfg random t = some (0, []) := by
  have hzero : ∀ args ∈ combinations vals, testArgs cfg t args = some (0, []) := by
    intro args hargs
    obtain ⟨r, hr, hrt⟩ := h args hargs
    exact testArgs_agree cfg hr hrt
  rw [testFunction_eq hvals]
  obtain ⟨_, hrun⟩ | ⟨before, args, after, report, hsplit, _, hone, _⟩ :=
    firstError_cases fun args hargs => .inl (hzero args hargs)
  · exact hrun
  · rw [hzero args (hsplit ▸ List.mem_append_right before List.mem_cons_self)] at hone
    simp at hone

/-- The values for `int`s: there are as many lists as arguments. -/
theorem argVals_ints (cfg : Config) (random : Nat → Nat → Word) {t : TestRec}
    (hranges : t.argRanges = ints) (hargs : t.args ≤ 3) :
    ∃ vals, argVals cfg random t = some vals ∧ vals.length = t.args := by
  have hgen : ∀ p ∈ (t.argRanges.take t.args).zipIdx, ∃ vals,
      genVals cfg (random p.2) p.1.1 p.1.2 (argTestRange t.args) p.2 = some vals := by
    rintro ⟨⟨lo, hi⟩, i⟩ hp
    obtain ⟨rfl, rfl⟩ : lo = -2 ^ 31 ∧ hi = 2 ^ 31 - 1 := by
      have hmem := List.mem_of_mem_take (List.fst_mem_of_mem_zipIdx hp)
      rw [hranges] at hmem
      simpa using List.eq_of_mem_replicate hmem
    have hints : ¬ ((-2 ^ 31 : Int) = 1 ∧ (2 ^ 31 - 1 : Int) = 1) := by decide
    by_cases hopt : cfg.hasArg i = true
    · exact ⟨[cfg.argval i], if_pos hopt⟩
    · exact ⟨_, genVals_ints (Bool.not_eq_true _ ▸ hopt) hints (argTestRange_le t.args)⟩
  obtain ⟨vals, hvals⟩ := exists_forall₂ hgen
  refine ⟨vals, mapM_eq_some_iff.mpr hvals, ?_⟩
  rw [← hvals.length_eq, List.length_zipIdx, List.length_take, hranges]
  exact Nat.min_eq_left hargs

theorem testFunction_ints (cfg : Config) (random : Nat → Nat → Word) {t : TestRec}
    (hranges : t.argRanges = ints) (hargs : t.args ≤ 3)
    (h : ∀ args, args.length = t.args → t.Agrees args) :
    testFunction cfg random t = some (0, []) := by
  obtain ⟨vals, hvals, hlength⟩ := argVals_ints cfg random hranges hargs
  refine testFunction_agrees hvals fun args hmem => h args ?_
  rw [← hlength]
  exact (mem_combinations.mp hmem).length_eq

/-- The patterns of `float`s that are tried are no large `int`s. -/
theorem floatVals_le {testRange : Nat} {v : Word} (h : v ∈ floatVals testRange) :
    v.toInt ≤ 2 ^ 31 - 128 := by
  -- a pattern with the sign bit is a negative `int`; the others are those of numbers up
  -- to infinity and a NaN
  have hsign : ∀ w : Word, (0x80000000 ||| w).toInt ≤ 2 ^ 31 - 128 := by
    intro w
    have hle : (0x80000000 : Word).toNat ≤ (0x80000000 ||| w : Word).toNat := by
      rw [BitVec.toNat_or]
      exact Nat.left_le_or
    rw [BitVec.toInt_eq_toNat_cond]
    change 2 ^ 31 ≤ _ at hle
    have hlt : (0x80000000 ||| w : Word).toNat < 2 ^ 32 := BitVec.isLt _
    split <;> omega
  have hpos : ∀ w : Word, w.toNat ≤ 0x7fc00000 → w.toInt ≤ 2 ^ 31 - 128 := by
    intro w hw
    rw [toInt_of_lt (by omega)]
    omega
  have hadd : ∀ (w i : Word), w.toNat ≤ 0x7f000000 → i.toNat < 2 ^ 23 →
      (w + i).toInt ≤ 2 ^ 31 - 128 := by
    intro w i hw hi
    refine hpos _ ?_
    rw [BitVec.toNat_add]
    omega
  have hsub : ∀ (w i : Word), w.toNat ≤ 0x7f000000 → 2 ^ 23 ≤ w.toNat → i.toNat < 2 ^ 23 →
      (w - i).toInt ≤ 2 ^ 31 - 128 := by
    intro w i hw hle hi
    refine hpos _ ?_
    rw [BitVec.toNat_sub]
    omega
  obtain hround | hspecial := List.mem_append.mp h
  · obtain ⟨k, hk, hv⟩ := List.mem_flatMap.mp hround
    have hlt : k < 2 ^ 23 := lt_of_lt_of_le (List.mem_range.mp hk) (Nat.min_le_right _ _)
    have hi : (BitVec.ofNat 32 k).toNat < 2 ^ 23 := by
      rw [BitVec.toNat_ofNat]
      omega
    simp only [List.mem_cons, List.not_mem_nil, or_false] at hv
    obtain rfl | rfl | rfl | rfl | rfl | rfl | rfl | rfl | rfl | rfl | rfl | rfl := hv
    · exact hpos _ (by omega)
    · exact hsign _
    · exact hadd _ _ (by decide) hi
    · exact hsub _ _ (by decide) (by decide) hi
    · exact hsign _
    · exact hsign _
    · exact hadd _ _ (by decide) hi
    · exact hsub _ _ (by decide) (by decide) hi
    · exact hsign _
    · exact hsign _
    · exact hsub _ _ (by decide) (by decide) hi
    · exact hsign _
  · simp only [List.mem_cons, List.not_mem_nil, or_false] at hspecial
    obtain rfl | rfl | rfl | rfl := hspecial
    · exact hpos _ (by decide)
    · exact hsign _
    · exact hpos _ (by decide)
    · exact hsign _

/-- Without the option the values for a pattern of a `float` are those. -/
theorem argVals_float (cfg : Config) (random : Nat → Nat → Word) {t : TestRec}
    (hranges : t.argRanges = floats) (hargs : t.args = 1) :
    argVals cfg random t =
      some [if cfg.hasArg 0 then [cfg.argval 0] else floatVals TEST_RANGE] := by
  have hgen : genVals cfg (random 0) 1 1 TEST_RANGE 0 =
      some (if cfg.hasArg 0 then [cfg.argval 0] else floatVals TEST_RANGE) := by
    have hlength := length_floatVals TEST_RANGE
    have hroom : (floatVals TEST_RANGE).length ≤ MAX_TEST_VALS := by
      rw [hlength]
      decide
    unfold genVals
    dsimp only
    by_cases hopt : cfg.hasArg 0 = true
    · rw [if_pos hopt, if_pos hopt]
    · rw [if_neg hopt, if_neg hopt, if_pos ⟨rfl, rfl⟩, if_pos hroom]
  unfold argVals
  rw [hranges, hargs]
  exact mapM_eq_some_iff.mpr (.cons hgen .nil)

/-- The option gives the puzzle a pattern for which it adds the bias beyond the
    largest `int`. -/
def Config.Large (cfg : Config) : Prop := cfg.hasArg 0 = true ∧ 2 ^ 31 - 128 < (cfg.argval 0).toInt

instance (cfg : Config) : Decidable cfg.Large := inferInstanceAs (Decidable (_ ∧ _))

theorem testFunction_float (cfg : Config) (random : Nat → Nat → Word) {t : TestRec}
    (hranges : t.argRanges = floats) (hargs : t.args = 1)
    (h : ∀ x : Word, x.toInt ≤ 2 ^ 31 - 128 ∨ cfg.hasArg 0 = true ∧ x = cfg.argval 0 →
      t.Agrees [x]) :
    testFunction cfg random t = some (0, []) := by
  refine testFunction_agrees (argVals_float cfg random hranges hargs) fun args hmem => ?_
  obtain ⟨x, hx, rfl⟩ :
      ∃ x ∈ if cfg.hasArg 0 then [cfg.argval 0] else floatVals TEST_RANGE, args = [x] := by
    simpa [combinations] using hmem
  refine h x ?_
  by_cases hopt : cfg.hasArg 0 = true
  · rw [if_pos hopt] at hx
    exact .inr ⟨hopt, List.mem_singleton.mp hx⟩
  · rw [if_neg hopt] at hx
    exact .inl (floatVals_le hx)

theorem agrees_one {t : TestRec} {f g : Word → Option Word} (hf : t.solution = call1 f)
    (hg : t.test = call1 g) (h : ∀ x, ∃ r, f x = some r ∧ g x = some r) (args : List Word)
    (hargs : args.length = 1) : t.Agrees args := by
  obtain ⟨x, rfl⟩ := List.length_eq_one_iff.mp hargs
  unfold TestRec.Agrees
  rw [hf, hg]
  exact h x

theorem agrees_two {t : TestRec} {f g : Word → Word → Option Word} (hf : t.solution = call2 f)
    (hg : t.test = call2 g) (h : ∀ x y, ∃ r, f x y = some r ∧ g x y = some r) (args : List Word)
    (hargs : args.length = 2) : t.Agrees args := by
  obtain ⟨x, y, rfl⟩ := List.length_eq_two.mp hargs
  unfold TestRec.Agrees
  rw [hf, hg]
  exact h x y

theorem testHowManyBits_eq (x : Word) : howManyBits x = some (testHowManyBits x) := by
  obtain ⟨n, hn, hval⟩ := toNat_howManyBits x
  rw [hn, BitVec.eq_of_toNat_eq (hval.trans (toNat_testHowManyBits x).symm)]

/-- All but the last puzzle, for any arguments. -/
theorem testSet_agrees (cfg : Config) (random : Nat → Nat → Word) :
    ∀ t ∈ testSet.dropLast, testFunction cfg random t = some (0, []) := by
  have hone : ∀ (f g : Word → Option Word) (name : CStr) (rating : Int),
      (∀ x, ∃ r, f x = some r ∧ g x = some r) →
      testFunction cfg random ⟨name, call1 f, call1 g, 1, rating, ints⟩ = some (0, []) :=
        fun f g name rating h =>
    testFunction_ints cfg random rfl (Nat.le_add_right 1 2) (agrees_one rfl rfl h)
  have htwo : ∀ (f g : Word → Word → Option Word) (name : CStr) (rating : Int),
      (∀ x y, ∃ r, f x y = some r ∧ g x y = some r) →
      testFunction cfg random ⟨name, call2 f, call2 g, 2, rating, ints⟩ = some (0, []) :=
        fun f g name rating h =>
    testFunction_ints cfg random rfl (Nat.le_add_right 2 1) (agrees_two rfl rfl h)
  have hfloat : ∀ (f g : Word → Option Word) (name : CStr) (rating : Int),
      (∀ x, ∃ r, f x = some r ∧ g x = some r) →
      testFunction cfg random ⟨name, call1 f, call1 g, 1, rating, floats⟩ = some (0, []) :=
        fun f g name rating h =>
    testFunction_float cfg random rfl rfl fun x _ => h x
  -- the table, but for its last entry
  show ∀ t ∈ [_, _, _, _, _, _, _, _, _, _, _, _], _
  simp only [List.forall_mem_cons]
  refine ⟨htwo _ _ _ _ fun x y => ⟨_, rfl, congrArg some (bitXor_eq x y).symm⟩, ?_,
    hone _ _ _ _ fun x => ⟨_, rfl, congrArg some (isTmax_eq x).symm⟩,
    hone _ _ _ _ allOddBits_eq, hone _ _ _ _ fun x => ⟨_, rfl, congrArg some (negate_eq x).symm⟩,
    hone _ _ _ _ fun x => ⟨_, isAsciiDigit_eq x, rfl⟩, ?_,
      htwo _ _ _ _ fun x y => ⟨_, isLessOrEqual_eq x y, rfl⟩,
    hone _ _ _ _ fun x => ⟨_, logicalNeg_eq x, rfl⟩,
      hone _ _ _ _ fun x => ⟨_, testHowManyBits_eq x, rfl⟩,
    hfloat _ _ _ _ fun x => ⟨_, floatScale2_eq x, rfl⟩,
      hfloat _ _ _ _ fun x => ⟨_, floatFloat2Int_eq_test x, rfl⟩,
    List.forall_mem_nil _⟩
  · refine testFunction_ints cfg random rfl (by decide) fun args hargs => ?_
    rw [List.eq_nil_of_length_eq_zero hargs]
    exact ⟨0x80000000, rfl, rfl⟩
  · refine testFunction_ints cfg random rfl (by decide) fun args hargs => ?_
    obtain ⟨x, y, z, rfl⟩ := List.length_eq_three.mp hargs
    exact ⟨_, congrArg some (conditional_eq x y z), rfl⟩

theorem testFunction_floatPower2 (cfg : Config) (random : Nat → Nat → Word) {t : TestRec}
    (hranges : t.argRanges = floats) (hargs : t.args = 1) (hf : t.solution = call1 floatPower2)
    (hg : t.test = call1 (some <| testFloatPower2 ·)) :
    ∃ report, testFunction cfg random t = some (if cfg.Large then 1 else 0, report) := by
  by_cases hlarge : cfg.Large
  · -- the one value that is tried is that of the option
    obtain ⟨hopt, hx⟩ := id hlarge
    have hne : (0 : Word) ≠ testFloatPower2 (cfg.argval 0) := by
      rw [testFloatPower2_eq, power2_infinity (by omega)]
      decide
    have hsol : t.solution [cfg.argval 0] = some 0 := by
      rw [hf]
      exact floatPower2_wraps (not_le.mpr hx)
    have htest : t.test [cfg.argval 0] = some (testFloatPower2 (cfg.argval 0)) := by
      rw [hg]
      rfl
    have hone := testArgs_differ cfg hsol htest hne
    refine ⟨if cfg.grade then [] else [⟨[cfg.argval 0], 0, testFloatPower2 (cfg.argval 0)⟩], ?_⟩
    rw [testFunction_eq (argVals_float cfg random hranges hargs), if_pos hopt, if_pos hlarge]
    show firstError (testArgs cfg t) [[cfg.argval 0]] = _
    rw [firstError_cons, hone]
    rfl
  · refine ⟨[], ?_⟩
    rw [if_neg hlarge]
    refine testFunction_float cfg random hranges hargs fun x hx => ?_
    have hle : x.toInt ≤ 2 ^ 31 - 128 := by
      obtain hx | ⟨hopt, rfl⟩ := hx
      · exact hx
      · exact not_lt.mp fun hlt => hlarge ⟨hopt, hlt⟩
    unfold TestRec.Agrees
    rw [hf, hg]
    refine ⟨_, floatPower2_eq hle, ?_⟩
    exact congrArg some (testFloatPower2_eq x)

/-- What there is to get. -/
def Config.total (cfg : Config) (ts : List TestRec) : Int :=
  ((ts.filter fun t => cfg.selects t.name).map cfg.weight).sum

theorem runTestsFrom_append (cfg : Config) (random : Nat → Nat → Nat → Word) (i : Nat) (s : Score)
    (ts us : List TestRec) :
    runTestsFrom cfg random i s (ts ++ us) =
      (runTestsFrom cfg random i s ts).bind fun s' =>
        runTestsFrom cfg random (i + ts.length) s' us := by
  induction ts generalizing i s with
  | nil => rfl
  | cons t ts ih =>
    have hlength : i + (t :: ts).length = i + 1 + ts.length := by
      rw [List.length_cons]
      omega
    rw [List.cons_append, runTestsFrom, runTestsFrom, hlength]
    by_cases hsel : cfg.selects t.name
    · rw [if_pos hsel, if_pos hsel]
      cases testFunction cfg (random i) t with
      | none => rfl
      | some result => exact ih (i + 1) _
    · rw [if_neg hsel, if_neg hsel]
      exact ih (i + 1) s

/-- A puzzle without errors adds what it is worth. -/
theorem runTestsFrom_perfect {cfg : Config} {random : Nat → Nat → Nat → Word} {ts : List TestRec}
    (h : ∀ t ∈ ts, ∀ random, testFunction cfg random t = some (0, [])) (i : Nat) (s : Score) :
    ∃ s', runTestsFrom cfg random i s ts = some s' ∧ s'.errors = s.errors ∧
      s'.points = s.points + cfg.total ts ∧
      s'.maxPoints = s.maxPoints + cfg.total ts := by
  induction ts generalizing i s with
  | nil => exact ⟨s, rfl, rfl, (Int.add_zero _).symm, (Int.add_zero _).symm⟩
  | cons t ts ih =>
    obtain ⟨ht, hts⟩ := List.forall_mem_cons.mp h
    rw [runTestsFrom]
    by_cases hsel : cfg.selects t.name
    · have htotal : cfg.total (t :: ts) = cfg.weight t + cfg.total ts := by
        simp [Config.total, hsel]
      rw [if_pos hsel, ht (random i), htotal]
      obtain ⟨s', hrun, herrors, hpoints, hmax⟩ := ih hts (i + 1) _
      refine ⟨s', hrun, herrors, hpoints.trans ?_, hmax.trans ?_⟩
      · simp [Int.add_assoc]
      · simp [Int.add_assoc]
    · have htotal : cfg.total (t :: ts) = cfg.total ts := by
        simp [Config.total, hsel]
      rw [if_neg hsel, htotal]
      exact ih hts (i + 1) s

theorem total_append (cfg : Config) (ts us : List TestRec) :
    cfg.total (ts ++ us) = cfg.total ts + cfg.total us := by
  rw [Config.total, List.filter_append, List.map_append, List.sum_append]
  rfl

/-- Only the last puzzle may have errors. -/
theorem runTests_last {cfg : Config} {ts : List TestRec} {last : TestRec} {errors : Nat}
    (h : ∀ t ∈ ts, ∀ random, testFunction cfg random t = some (0, []))
    (hlast : ∀ random, ∃ report, testFunction cfg random last = some (errors, report))
    (random : Nat → Nat → Nat → Word) :
    ∃ s, runTests cfg random (ts ++ [last]) = some s ∧ s.maxPoints = cfg.total (ts ++ [last]) ∧
      s.errors = (if cfg.selects last.name then errors else 0) ∧
      s.points = s.maxPoints -
        if cfg.selects last.name ∧ errors ≠ 0 then cfg.weight last else 0 := by
  obtain ⟨s, hrun, herrors, hpoints, hmax⟩ := runTestsFrom_perfect h 0 ⟨0, 0, 0, [], []⟩
  rw [Int.zero_add] at hpoints hmax
  obtain ⟨report, hresult⟩ := hlast (random (0 + ts.length))
  rw [runTests, runTestsFrom_append, hrun, Option.bind_some, runTestsFrom, total_append]
  -- only the last test can cost points
  by_cases hsel : cfg.selects last.name
  · have htotal : cfg.total [last] = cfg.weight last := by
      simp [Config.total, hsel]
    rw [if_pos hsel, if_pos hsel, hresult, htotal]
    refine ⟨_, rfl, ?_, ?_, ?_⟩
    · exact congrArg (· + cfg.weight last) hmax
    · exact (congrArg (· + errors) herrors).trans (Nat.zero_add errors)
    · show s.points + (if errors = 0 then cfg.weight last else 0) =
          s.maxPoints + cfg.weight last - _
      rw [hpoints, hmax]
      by_cases hzero : errors = 0
      · rw [if_pos hzero, if_neg fun h => h.2 hzero, Int.sub_zero]
      · rw [if_neg hzero, if_pos ⟨hsel, hzero⟩]
        omega
  · have htotal : cfg.total [last] = 0 := by
      simp [Config.total, hsel]
    rw [if_neg hsel, if_neg hsel, htotal, if_neg fun h => hsel h.1]
    refine ⟨s, rfl, ?_, herrors, ?_⟩
    · rw [hmax, Int.add_zero]
    · rw [hpoints, hmax, Int.sub_zero]

end DataLab
