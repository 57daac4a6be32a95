import CsappExperiments.CLib
import Mathlib.Data.List.TakeWhile

/-! # C library: formatted input

    The conversions `%d`, `%u` and `%s` of `scanf`, for 32-bit `long`s, and
    `%llx`. Each takes a stream and leaves the rest of it. Numerals that have been printed
    are read back, whatever follows them (`scanD_intText`, `scanU_natText`).
-/

namespace CLib

/-! ## Conversions -/

/-- A sign and the digits of a number, or nothing, and the rest. White space
    is skipped, and a sign without digits is lost. -/
def scanNumber (s : CStr) : Option (Bool × Nat) × CStr :=
  let t := s.dropWhile isspace
  let neg := t.head? = some '-'
  let t := if neg ∨ t.head? = some '+' then t.tail else t
  if t.takeWhile isdigit = [] then (none, t) else (some (neg, decimal t), t.dropWhile isdigit)

/-- `%d`: `strtol` saturates. -/
def scanD (s : CStr) : Option (BitVec 32) × CStr :=
  let (number, rest) := scanNumber s
  (number.map fun (neg, n) =>
    BitVec.ofInt 32 (if neg then max (-2 ^ 31) (-(n : Int)) else min (2 ^ 31 - 1) (n : Int)), rest)

/-- `%u`: `strtoul` saturates, and then negates. -/
def scanU (s : CStr) : Option (BitVec 32) × CStr :=
  let (number, rest) := scanNumber s
  (number.map fun (neg, n) =>
    if 2 ^ 32 ≤ n then BitVec.ofNat 32 (2 ^ 32 - 1)
    else if neg then -BitVec.ofNat 32 n else BitVec.ofNat 32 n, rest)

/-- `%llx`: the value only. An optional `0x` is skipped, and `strtoull` saturates and then
    negates. -/
def scanX (s : CStr) : Option (BitVec 64) :=
  let t := s.dropWhile isspace
  let neg := t.head? = some '-'
  let t := skipPrefix (if neg ∨ t.head? = some '+' then t.tail else t)
  let n := hexadecimal 0 t
  if t.takeWhile isxdigit = [] then none
  else some (if 2 ^ 64 ≤ n then BitVec.ofNat 64 (2 ^ 64 - 1)
    else if neg then -BitVec.ofNat 64 n else BitVec.ofNat 64 n)

/-- `%s`: a word, or the end of the stream. -/
def scanS (s : CStr) : Option (CStr × CStr) :=
  let t := s.dropWhile isspace
  if t = [] then none else some (t.takeWhile fun c => !isspace c, t.dropWhile fun c => !isspace c)

/-! ## Printed numbers -/

/-- `%u`. -/
def natText (n : Nat) : CStr := Nat.toDigits 10 n

/-- `%d`. -/
def intText (x : Int) : CStr := if x < 0 then '-' :: natText x.natAbs else natText x.natAbs

/-- `%lx`. -/
def hexText (n : Nat) : CStr := Nat.toDigits 16 n

theorem hexDigit_digitChar {d : Nat} (hd : d < 16) : hexDigit d.digitChar = some d := by
  have hall : ∀ d : Fin 16, hexDigit d.val.digitChar = some d.val := by decide
  exact hall ⟨d, hd⟩

/-- The digits that are printed, and their value. -/
theorem hexText_digits (n : Nat) :
    (∀ c ∈ hexText n, isxdigit c) ∧ hexadecimal 0 (hexText n) = n := by
  unfold hexText
  induction n using Nat.strongRecOn with
  | _ n ih =>
    by_cases hlt : n < 16
    · have hdigit := hexDigit_digitChar hlt
      rw [Nat.toDigits_of_lt_base hlt]
      refine ⟨List.forall_mem_singleton.mpr (by simp [isxdigit, hdigit]), ?_⟩
      simp [hexadecimal, hdigit]
    · obtain ⟨hdigits, hvalue⟩ := ih (n / 16) (by omega)
      have hmod : n % 16 < 16 := Nat.mod_lt n (by decide)
      have hdigit := hexDigit_digitChar hmod
      rw [Nat.toDigits_of_base_le (by decide) (Nat.not_lt.mp hlt)]
      constructor
      · intro c hc
        rcases List.mem_append.mp hc with hc | hc
        · exact hdigits c hc
        · rw [List.mem_singleton.mp hc]
          simp [isxdigit, hdigit]
      · rw [hexadecimal_append hdigits, hvalue]
        simp only [hexadecimal, hdigit]
        omega

theorem isdigit_eq (c : Char) : isdigit c = c.isDigit := by
  rw [Bool.eq_iff_iff]
  simp [isdigit, Char.isDigit, Char.le_def]

theorem isdigit_of_mem_natText {n : Nat} {c : Char} (h : c ∈ natText n) : isdigit c = true := by
  rw [isdigit_eq]
  exact Nat.isDigit_of_mem_toDigits (by decide) (by decide) h

theorem natText_ne_nil (n : Nat) : natText n ≠ [] := Nat.toDigits_ne_nil

/-- No digit comes next. -/
def NoDigit (s : CStr) : Prop := ∀ c, s.head? = some c → isdigit c = false

theorem takeWhile_natText (n : Nat) {s : CStr} (hs : NoDigit s) :
    (natText n ++ s).takeWhile isdigit = natText n := by
  rw [List.takeWhile_append_of_pos fun c hc => isdigit_of_mem_natText hc]
  cases s with
  | nil => simp
  | cons c s => simp [hs c rfl]

theorem dropWhile_natText (n : Nat) {s : CStr} (hs : NoDigit s) :
    (natText n ++ s).dropWhile isdigit = s := by
  rw [List.dropWhile_append_of_pos fun c hc => isdigit_of_mem_natText hc]
  cases s with
  | nil => rfl
  | cons c s => exact List.dropWhile_cons_of_neg (by simp [hs c rfl])

theorem decimal_natText (n : Nat) {s : CStr} (hs : NoDigit s) : decimal (natText n ++ s) = n := by
  unfold decimal
  rw [takeWhile_natText n hs]
  exact Nat.ofDigitChars_ten_toDigits

theorem natText_cons (n : Nat) : ∃ c s, natText n = c :: s ∧ isdigit c = true := by
  obtain ⟨c, s, h⟩ := List.exists_cons_of_ne_nil (natText_ne_nil n)
  exact ⟨c, s, h, isdigit_of_mem_natText (h ▸ List.mem_cons_self)⟩

theorem dropWhile_isspace {ws s : CStr} (hws : ∀ c ∈ ws, isspace c = true) {c : Char}
    (hc : s.head? = some c) (hne : isspace c = false) : (ws ++ s).dropWhile isspace = s := by
  rw [List.dropWhile_append_of_pos hws]
  obtain ⟨t, rfl⟩ := List.head?_eq_some_iff.mp hc
  exact List.dropWhile_cons_of_neg (by simp [hne])

/-- White space and a numeral. -/
theorem scanNumber_natText {ws : CStr} (hws : ∀ c ∈ ws, isspace c = true) (n : Nat) {s : CStr}
    (hs : NoDigit s) :
    scanNumber (ws ++ (natText n ++ s)) = (some (false, n), s) := by
  obtain ⟨c, t, htext, hdigit⟩ := natText_cons n
  have hhead : (natText n ++ s).head? = some c := by rw [htext]; rfl
  have hminus : c ≠ '-' := by rintro rfl; exact absurd hdigit (by decide)
  have hplus : c ≠ '+' := by rintro rfl; exact absurd hdigit (by decide)
  have hspace := isspace_of_isxdigit (isxdigit_of_isdigit hdigit)
  unfold scanNumber
  dsimp only
  rw [dropWhile_isspace hws hhead hspace, hhead]
  simp only [Option.some.injEq, hminus, hplus, or_self, if_false, takeWhile_natText n hs,
    dropWhile_natText n hs,
    decimal_natText n hs, natText_ne_nil, decide_false]

/-- White space, a minus sign and a numeral. -/
theorem scanNumber_minus {ws : CStr} (hws : ∀ c ∈ ws, isspace c = true) (n : Nat) {s : CStr}
    (hs : NoDigit s) :
    scanNumber (ws ++ ('-' :: natText n ++ s)) = (some (true, n), s) := by
  unfold scanNumber
  dsimp only
  rw [dropWhile_isspace hws rfl (by decide)]
  simp [takeWhile_natText n hs, dropWhile_natText n hs, decimal_natText n hs, natText_ne_nil]

/-- A printed `unsigned` is read back. -/
theorem scanU_natText {ws : CStr} (hws : ∀ c ∈ ws, isspace c = true) (x : BitVec 32) {s : CStr}
    (hs : NoDigit s) :
    scanU (ws ++ (natText x.toNat ++ s)) = (some x, s) := by
  have hlt : x.toNat < 2 ^ 32 := x.isLt
  have hsmall : ¬ 2 ^ 32 ≤ x.toNat := Nat.not_le.mpr hlt
  unfold scanU
  rw [scanNumber_natText hws x.toNat hs]
  show (some (if 2 ^ 32 ≤ x.toNat then _ else BitVec.ofNat 32 x.toNat), s) = _
  rw [if_neg hsmall, BitVec.ofNat_toNat, BitVec.setWidth_eq]

/-- A printed `int` is read back. -/
theorem scanD_intText {ws : CStr} (hws : ∀ c ∈ ws, isspace c = true) (x : BitVec 32) {s : CStr}
    (hs : NoDigit s) :
    scanD (ws ++ (intText x.toInt ++ s)) = (some x, s) := by
  have hlo : -2 ^ 31 ≤ x.toInt := by have := BitVec.le_toInt x; omega
  have hhi : x.toInt < 2 ^ 31 := by have := BitVec.toInt_lt (x := x); omega
  unfold scanD
  by_cases hneg : x.toInt < 0
  · rw [intText, if_pos hneg, scanNumber_minus hws _ hs]
    have hval : max (-2 ^ 31) (-(x.toInt.natAbs : Int)) = x.toInt := by omega
    show (some (BitVec.ofInt 32 (max (-2 ^ 31) (-(x.toInt.natAbs : Int)))), s) = _
    rw [hval, BitVec.ofInt_toInt]
  · rw [intText, if_neg hneg, scanNumber_natText hws _ hs]
    have hval : min (2 ^ 31 - 1) (x.toInt.natAbs : Int) = x.toInt := by omega
    show (some (BitVec.ofInt 32 (min (2 ^ 31 - 1) (x.toInt.natAbs : Int))), s) = _
    rw [hval, BitVec.ofInt_toInt]

/-- A word is read up to the next white space. -/
theorem scanS_word {ws word s : CStr} (hws : ∀ c ∈ ws, isspace c = true)
    (hword : ∀ c ∈ word, isspace c = false) (hne : word ≠ [])
    (hs : ∀ c, s.head? = some c → isspace c = true) :
    scanS (ws ++ (word ++ s)) = some (word, s) := by
  obtain ⟨c, t, rfl⟩ := List.exists_cons_of_ne_nil hne
  have hdrop := dropWhile_isspace (s := (c :: t) ++ s) hws rfl (hword c List.mem_cons_self)
  have hall : ∀ d ∈ c :: t, (!isspace d) = true := fun d hd => by simp [hword d hd]
  unfold scanS
  dsimp only
  rw [hdrop, if_neg (by simp), List.takeWhile_append_of_pos hall, List.dropWhile_append_of_pos hall]
  cases s with
  | nil => simp
  | cons d s => simp [hs d rfl]

/-- Only white space is left. -/
theorem scanS_eof {ws : CStr} (hws : ∀ c ∈ ws, isspace c = true) : scanS ws = none := by
  have hnil : ws.dropWhile isspace = [] := List.dropWhile_eq_nil_iff.mpr hws
  unfold scanS
  dsimp only
  rw [hnil]
  rfl

end CLib
