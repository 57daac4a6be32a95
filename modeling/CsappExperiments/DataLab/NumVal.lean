import CsappExperiments.DataLab.Word
import CsappExperiments.Scanf

/-! # Data Lab: numbers on the command line

    `ishow`, `fshow` and `btest` read a number with functions that are almost
    the same, all called `get_num_val`. `ishow` prints a word in three ways, and
    reads back each of them (`ishow_roundtrip`).

    `strtof` is a parameter; it gives a pattern and what it has not read.
-/

open CLib

namespace DataLab

/-! ## Section 1: Model -/

/-- The value of the octal digits at the start of `s`. -/
def octal (s : CStr) : Nat :=
  (s.takeWhile fun c => '0' ≤ c && c ≤ '7').foldl (fun n c => 8 * n + (c.toNat - '0'.toNat)) 0

/-- The number that the prefix says how to read. -/
def prefixed (s : CStr) : Nat :=
  if skipPrefix s ≠ s then hexadecimal 0 (skipPrefix s) else if s.head? = some '0' then octal
    s else decimal s

/-- `strtoll(s, &endp, 0)`: the value only. -/
def strtoll0 (s : CStr) : Int :=
  match s.dropWhile isspace with
  | '-' :: t => max (-2 ^ 63) (-(prefixed t : Int))
  | '+' :: t => min (2 ^ 63 - 1) (prefixed t : Int)
  | t => min (2 ^ 63 - 1) (prefixed t : Int)

/-- The loop over the characters: `ishex` and `isfloat`. -/
def scanFlags : Bool → Bool → CStr → Bool
  | _, isfloat, [] => isfloat
  | ishex, isfloat, c :: s =>
    if c = 'x' ∨ c = 'X' then scanFlags true isfloat s
    else if c = 'e' ∨ c = 'E' then scanFlags ishex (isfloat || !ishex) s
    else if c = '.' then scanFlags ishex true s
    else scanFlags ishex isfloat s

/-- What the three functions have in common. -/
def numVal (floatVal : CStr → Option Word) (valp : Prop) [Decidable valp] (sval : CStr) :
    Option Word :=
  if scanFlags false false sval then floatVal sval
  else
    let llval := strtoll0 sval
    let upperbits := llval.shiftRight 31
    if valp ∧ (upperbits = 0 ∨ upperbits = -1 ∨ upperbits = 1) then some
      (BitVec.ofInt 32 llval) else none

/-- The branch for a `float`: nothing may be left. -/
def floatVal (strtof : CStr → Word × CStr) (sval : CStr) : Option Word :=
  let (fval, rest) := strtof sval
  if rest = [] then some fval else none

/-- `get_num_val` of `ishow.c`. -/
def ishowNumVal (sval : CStr) : Option Word := numVal (fun _ => none) True sval

/-- `get_num_val` of `fshow.c`. -/
def fshowNumVal (strtof : CStr → Word × CStr) (sval : CStr) : Option Word :=
  numVal (floatVal strtof) True sval

/-- `get_num_val` of `btest.c`. It looks at what `valp` points to, not at the
    pointer and not at the end of the number. -/
def btestNumVal (strtof : CStr → Word × CStr) (sval : CStr) (valp : Word) : Option Word :=
  numVal (floatVal strtof) (valp = 0) sval

/-- `%.8x`. -/
def hexText8 (x : Word) : CStr :=
  List.replicate (8 - (hexText x.toNat).length) '0' ++ hexText x.toNat

/-- The fields that `show_int` prints. -/
def showInt (uf : Word) : List CStr :=
  ['0' :: 'x' :: hexText8 uf, intText uf.toInt, natText uf.toNat]

/-- The loop of `ishow`: what it prints for the arguments. -/
def ishow (argv : List CStr) : List (Option (List CStr)) :=
  argv.map fun sval => (ishowNumVal sval).map showInt

example : ishowNumVal ['0', 'x', '1', '0', 'e', 'q'] = some 0x10e := by decide

/-! ## Section 2: What is read -/

/-- A number of 32 bits, with or without a sign. -/
theorem upperbits_iff (llval : Int) :
    (llval.shiftRight 31 = 0 ∨ llval.shiftRight 31 = -1 ∨ llval.shiftRight 31 = 1) ↔
      -2 ^ 31 ≤ llval ∧ llval < 2 ^ 32 := by
  have hdiv : llval.shiftRight 31 = llval / 2 ^ 31 := Int.shiftRight_eq_div_pow llval 31
  rw [hdiv]
  omega

theorem numVal_int {floatVal : CStr → Option Word} {valp : Prop} [Decidable valp] (hvalp : valp)
    {sval : CStr} (hint : scanFlags false false sval = false) (hlo : -2 ^ 31 ≤ strtoll0 sval)
    (hhi : strtoll0 sval < 2 ^ 32) :
    numVal floatVal valp sval = some (BitVec.ofInt 32 (strtoll0 sval)) := by
  unfold numVal
  rw [hint, if_neg Bool.false_ne_true]
  exact if_pos ⟨hvalp, (upperbits_iff _).mpr ⟨hlo, hhi⟩⟩

/-- After `x` only a point makes it a `float`. -/
theorem scanFlags_hex {s : CStr} (h : ∀ c ∈ s, c ≠ '.') : scanFlags true false s = false := by
  induction s with
  | nil => rfl
  | cons c s ih =>
    obtain ⟨hc, hs⟩ := List.forall_mem_cons.mp h
    unfold scanFlags
    split_ifs <;> exact ih hs

theorem scanFlags_plain {s : CStr} (h : ∀ c ∈ s, c ≠ '.' ∧ c ≠ 'e' ∧ c ≠ 'E' ∧ c ≠ 'x' ∧ c ≠ 'X') :
    scanFlags false false s = false := by
  induction s with
  | nil => rfl
  | cons c s ih =>
    obtain ⟨⟨hdot, he, hE, hx, hX⟩, hs⟩ := List.forall_mem_cons.mp h
    unfold scanFlags
    rw [if_neg (not_or.mpr ⟨hx, hX⟩), if_neg (not_or.mpr ⟨he, hE⟩), if_neg hdot]
    exact ih hs

/-- Neither white space nor a sign. -/
theorem strtoll0_of_isxdigit {c : Char} (h : isxdigit c) (s : CStr) :
    strtoll0 (c :: s) = min (2 ^ 63 - 1) (prefixed (c :: s) : Int) := by
  have hminus : c ≠ '-' := by rintro rfl; exact absurd h (by decide)
  have hplus : c ≠ '+' := by rintro rfl; exact absurd h (by decide)
  unfold strtoll0
  rw [List.dropWhile_cons_of_neg (by simp [isspace_of_isxdigit h])]
  split
  · next heq => exact absurd (List.cons.inj heq).1 hminus
  · next heq => exact absurd (List.cons.inj heq).1 hplus
  · rfl

/-! ## Section 3: What is printed -/

/-- Only 0 starts with the digit 0. -/
theorem natText_head {n : Nat} (h : 0 < n) : ∃ c s, natText n = c :: s ∧ c ≠ '0' := by
  unfold natText
  induction n using Nat.strongRecOn with
  | _ n ih =>
    by_cases hlt : n < 10
    · have hdigit : ∀ d : Fin 10, 0 < d.val → d.val.digitChar ≠ '0' := by decide
      rw [Nat.toDigits_of_lt_base hlt]
      exact ⟨_, [], rfl, hdigit ⟨n, hlt⟩ h⟩
    · obtain ⟨c, s, htext, hne⟩ := ih (n / 10) (by omega) (by omega)
      rw [Nat.toDigits_of_base_le (by decide) (Nat.not_lt.mp hlt), htext]
      exact ⟨c, _, List.cons_append, hne⟩

theorem skipPrefix_of_ne {c : Char} (h : c ≠ '0') (s : CStr) : skipPrefix (c :: s) = c :: s := by
  unfold skipPrefix
  split
  · next heq => exact absurd (List.cons.inj heq).1 h
  · rfl

/-- A decimal numeral has no prefix. -/
theorem prefixed_natText (n : Nat) : prefixed (natText n) = n := by
  by_cases hzero : n = 0
  · subst hzero
    rfl
  obtain ⟨c, s, htext, hne⟩ := natText_head (Nat.pos_of_ne_zero hzero)
  have hskip : ¬ skipPrefix (natText n) ≠ natText n := by
    rw [htext, skipPrefix_of_ne hne]
    exact not_not.mpr rfl
  have hhead : ¬ (natText n).head? = some '0' := by
    rw [htext]
    exact fun h => hne (Option.some.inj h)
  have hdecimal := decimal_natText n (s := []) (fun c hc => nomatch hc)
  rw [List.append_nil] at hdecimal
  unfold prefixed
  rw [if_neg hskip, if_neg hhead, hdecimal]

/-- A hexadecimal numeral has the prefix `0x`. -/
theorem prefixed_hex {hex : CStr} (hne : hex ≠ []) (h : ∀ c ∈ hex, isxdigit c) :
    prefixed ('0' :: 'x' :: hex) = hexadecimal 0 hex := by
  obtain ⟨d, s, rfl⟩ := List.exists_cons_of_ne_nil hne
  have hskip : skipPrefix ('0' :: 'x' :: d :: s) = d :: s :=
    if_pos ⟨.inl rfl, h d List.mem_cons_self⟩
  have hshorter : d :: s ≠ '0' :: 'x' :: d :: s := by
    intro heq
    have hlength := congrArg List.length heq
    simp at hlength
  unfold prefixed
  rw [hskip, if_pos hshorter]

/-- White space, points and letters other than `e` do not occur. -/
theorem plain_of_isdigit {c : Char} (h : isdigit c = true) :
    c ≠ '.' ∧ c ≠ 'e' ∧ c ≠ 'E' ∧ c ≠ 'x' ∧ c ≠ 'X' := by
  refine ⟨?_, ?_, ?_, ?_, ?_⟩ <;>
  · rintro rfl
    exact absurd h (by decide)

section Printed

variable {floatVal : CStr → Option Word} {valp : Prop} [Decidable valp] (hvalp : valp) (w : Word)

include hvalp

theorem numVal_natText : numVal floatVal valp (natText w.toNat) = some w := by
  obtain ⟨c, s, htext, hdigit⟩ := natText_cons w.toNat
  have hlt : w.toNat < 2 ^ 32 := w.isLt
  have hval : strtoll0 (natText w.toNat) = w.toNat := by
    rw [htext, strtoll0_of_isxdigit (isxdigit_of_isdigit hdigit), ← htext, prefixed_natText]
    omega
  have hplain := scanFlags_plain fun c hc =>
      plain_of_isdigit (isdigit_of_mem_natText (n := w.toNat) (c := c) hc)
  rw [numVal_int hvalp hplain (by omega) (by omega), hval, BitVec.ofInt_natCast, BitVec.ofNat_toNat,
    BitVec.setWidth_eq]

theorem numVal_intText : numVal floatVal valp (intText w.toInt) = some w := by
  have hlo : -2 ^ 31 ≤ w.toInt := by have := BitVec.le_toInt w; omega
  by_cases hneg : w.toInt < 0
  · have hval : strtoll0 (intText w.toInt) = w.toInt := by
      rw [intText, if_pos hneg]
      show max (-2 ^ 63) (-(prefixed (natText w.toInt.natAbs) : Int)) = _
      rw [prefixed_natText]
      omega
    have hplain : scanFlags false false (intText w.toInt) = false := by
      rw [intText, if_pos hneg]
      refine scanFlags_plain fun c hc => ?_
      obtain rfl | hc := List.mem_cons.mp hc
      · decide
      · exact plain_of_isdigit (isdigit_of_mem_natText hc)
    rw [numVal_int hvalp hplain (by omega) (by omega), hval, BitVec.ofInt_toInt]
  · have heq : intText w.toInt = natText w.toNat := by
      have habs : w.toInt.natAbs = w.toNat := by
        have hcond := BitVec.toInt_eq_toNat_cond w
        have hlt : w.toNat < 2 ^ 32 := w.isLt
        split at hcond <;> omega
      rw [intText, if_neg hneg, habs]
    rw [heq]
    exact numVal_natText hvalp w

theorem numVal_hex {hex : CStr} (hne : hex ≠ []) (h : ∀ c ∈ hex, isxdigit c)
    (hval : hexadecimal 0 hex = w.toNat) :
    numVal floatVal valp ('0' :: 'x' :: hex) = some w := by
  have hlt : w.toNat < 2 ^ 32 := w.isLt
  have hread : strtoll0 ('0' :: 'x' :: hex) = w.toNat := by
    rw [strtoll0_of_isxdigit (by decide), prefixed_hex hne h, hval]
    omega
  have hplain : scanFlags false false ('0' :: 'x' :: hex) = false := by
    show scanFlags true false hex = false
    refine scanFlags_hex fun c hc => ?_
    rintro rfl
    exact absurd (h _ hc) (by decide)
  rw [numVal_int hvalp hplain (by omega) (by omega), hread, BitVec.ofInt_natCast,
    BitVec.ofNat_toNat, BitVec.setWidth_eq]

end Printed

theorem hexText8_digits (w : Word) :
    hexText8 w ≠ [] ∧ (∀ c ∈ hexText8 w, isxdigit c) ∧ hexadecimal 0 (hexText8 w) = w.toNat := by
  obtain ⟨hdigits, hvalue⟩ := hexText_digits w.toNat
  have hzeros : ∀ c ∈ List.replicate (8 - (hexText w.toNat).length) '0', isxdigit c := by
    intro c hc
    rw [List.eq_of_mem_replicate hc]
    decide
  have hzero : hexadecimal 0 (List.replicate (8 - (hexText w.toNat).length) '0') = 0 :=
    (hexadecimal_eq_self_iff hzeros 0).mpr (.inr ⟨rfl, fun c hc => List.eq_of_mem_replicate hc⟩)
  unfold hexText8
  refine ⟨List.append_ne_nil_of_right_ne_nil _ Nat.toDigits_ne_nil, ?_, ?_⟩
  · intro c hc
    cases List.mem_append.mp hc with
    | inl hc => exact hzeros c hc
    | inr hc => exact hdigits c hc
  · rw [hexadecimal_append hzeros, hzero, hvalue]

/-- Each field is read back, as the word it was printed for. -/
theorem numVal_showInt {floatVal : CStr → Option Word} {valp : Prop} [Decidable valp]
    (hvalp : valp) {w : Word} {text : CStr} (h : text ∈ showInt w) :
    numVal floatVal valp text = some w := by
  obtain ⟨hne, hdigits, hvalue⟩ := hexText8_digits w
  simp only [showInt, List.mem_cons, List.not_mem_nil, or_false] at h
  obtain rfl | rfl | rfl := h
  · exact numVal_hex hvalp w hne hdigits hvalue
  · exact numVal_intText hvalp w
  · exact numVal_natText hvalp w

/-- What `ishow` has printed can be given to it and to `fshow` again: each field
    stands for the same word. -/
theorem ishow_roundtrip (strtof : CStr → Word × CStr) (ws : List Word) :
    ishow (ws.flatMap showInt) = (ws.flatMap fun w => List.replicate 3 (some (showInt w))) ∧
      ∀ w, ∀ text ∈ showInt w, fshowNumVal strtof text = some w := by
  refine ⟨?_, fun w text h => numVal_showInt trivial h⟩
  have hfield : ∀ w, ∀ text ∈ showInt w, (ishowNumVal text).map showInt = some (showInt w) := by
    intro w text h
    unfold ishowNumVal
    rw [numVal_showInt trivial h]
    rfl
  unfold ishow
  rw [List.map_flatMap]
  congr 1
  funext w
  exact List.eq_replicate_iff.mpr ⟨rfl, fun o ho => by
    obtain ⟨text, htext, rfl⟩ := List.mem_map.mp ho
    exact hfield w text htext⟩

end DataLab
