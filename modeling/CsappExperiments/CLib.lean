import Mathlib.Data.Int.ModEq
import Mathlib.Data.Int.Order.Basic
import Mathlib.Tactic.NormNum

/-! # C library: machine integers and strings

    The parts of C's integer arithmetic and of the standard library that
    the programs of this repository rely on.
-/

namespace CLib

/-- A C string: the characters before the terminating NUL. -/
abbrev CStr : Type := List Char

/-! ## 32-bit integers -/

/-- The `int` that a mathematical integer is stored as: two's complement, 32 bits. -/
def wrap32 (x : Int) : Int := x.bmod (2 ^ 32)

theorem wrap32_of_range {x : Int} (hlo : -2 ^ 31 ≤ x) (hhi : x < 2 ^ 31) : wrap32 x = x := by
  unfold wrap32
  apply Int.bmod_eq_of_le <;> norm_num at * <;> omega

theorem wrap32_eq_iff {x y : Int} : wrap32 x = wrap32 y ↔ x ≡ y [ZMOD 2 ^ 32] := by
  unfold wrap32
  constructor
  · intro h
    have hzero := Int.bmod_eq_bmod_iff_bmod_sub_eq_zero.mp h
    exact (Int.modEq_iff_dvd.mpr (Int.dvd_iff_bmod_eq_zero.mpr hzero)).symm
  · intro h
    rw [← Int.emod_bmod x, ← Int.emod_bmod y]
    exact congrArg (Int.bmod · (2 ^ 32)) h

@[simp] theorem wrap32_wrap32 (x : Int) : wrap32 (wrap32 x) = wrap32 x := by
  simp [wrap32]

theorem wrap32_modEq (x : Int) : wrap32 x ≡ x [ZMOD 2 ^ 32] :=
  wrap32_eq_iff.mp (wrap32_wrap32 x)

/-! ## Character classes, `atoi` and `strtol` -/

def isdigit (c : Char) : Bool := '0' ≤ c && c ≤ '9'

/-- Space, and the range from tab to carriage return. -/
def isspace (c : Char) : Bool := c = ' ' || ('\t' ≤ c && c ≤ '\r')

/-- The value of the decimal digits at the start of `s`. -/
def decimal (s : CStr) : Nat :=
  (s.takeWhile isdigit).foldl (fun n c => 10 * n + (c.toNat - '0'.toNat)) 0

/-- `strtol(s, NULL, 10)`: leading white space, an optional sign, digits;
    the value saturates at the bounds of a 64-bit `long`. -/
def strtol10 (s : CStr) : Int :=
  match s.dropWhile isspace with
  | '-' :: t => max (-2 ^ 63) (-(decimal t : Int))
  | '+' :: t => min (2 ^ 63 - 1) (decimal t : Int)
  | t => min (2 ^ 63 - 1) (decimal t : Int)

/-- `atoi`: the result of `strtol` stored in an `int`. -/
def atoi (s : CStr) : Int := wrap32 (strtol10 s)

example : atoi ['1', '2', 'x'] = 12 := by decide

def hexDigit (c : Char) : Option Nat :=
  if isdigit c then some (c.toNat - '0'.toNat)
  else if 'a' ≤ c ∧ c ≤ 'f' then some (c.toNat - 'a'.toNat + 10)
  else if 'A' ≤ c ∧ c ≤ 'F' then some (c.toNat - 'A'.toNat + 10)
  else none

def isxdigit (c : Char) : Bool := (hexDigit c).isSome

/-- The value of the hexadecimal digits at the start of `s`, after digits of value `n`. -/
def hexadecimal (n : Nat) : CStr → Nat
  | [] => n
  | c :: s =>
    match hexDigit c with
    | none => n
    | some d => hexadecimal (16 * n + d) s

/-- An optional prefix `0x`. It is one only if a digit follows. -/
def skipPrefix : CStr → CStr
  | '0' :: x :: d :: s => if (x = 'x' ∨ x = 'X') ∧ isxdigit d then d :: s else '0' :: x :: d :: s
  | s => s

/-- `strtol(s, NULL, 16)`. -/
def strtol16 (s : CStr) : Int :=
  match s.dropWhile isspace with
  | '-' :: t => max (-2 ^ 63) (-(hexadecimal 0 (skipPrefix t) : Int))
  | '+' :: t => min (2 ^ 63 - 1) (hexadecimal 0 (skipPrefix t) : Int)
  | t => min (2 ^ 63 - 1) (hexadecimal 0 (skipPrefix t) : Int)

example : strtol16 ['0', 'x', '1', '2', 'F', ','] = 0x12f := by decide

/-! ## What `strtol` makes of hexadecimal digits -/

theorem hexDigit_eq_zero {c : Char} : hexDigit c = some 0 ↔ c = '0' := by
  constructor
  · intro h
    unfold hexDigit at h
    split at h
    · next hdigit =>
      have hlo : '0' ≤ c := by simpa using (Bool.and_eq_true_iff.mp hdigit).1
      have hle : '0'.toNat ≤ c.toNat := hlo
      have heq : c.toNat = '0'.toNat := by
        have hsub : c.toNat - '0'.toNat = 0 := Option.some.inj h
        omega
      exact Char.ext (UInt32.toNat_inj.mp heq)
    · split at h
      · cases h
      · split at h <;> cases h
  · rintro rfl
    rfl

/-- Digits are read on top of what has been read before. -/
theorem hexadecimal_append {hex : CStr} (h : ∀ c ∈ hex, isxdigit c) (n : Nat) (s : CStr) :
    hexadecimal n (hex ++ s) = hexadecimal (hexadecimal n hex) s := by
  induction hex generalizing n with
  | nil => rfl
  | cons c hex ih =>
    obtain ⟨d, hd⟩ := Option.isSome_iff_exists.mp (h c List.mem_cons_self)
    simp only [List.cons_append, hexadecimal, hd]
    exact ih (fun c hc => h c (List.mem_cons_of_mem _ hc)) _

/-- Nothing is read from the first character on that is no digit. -/
theorem hexadecimal_takeWhile (n : Nat) (s : CStr) :
    hexadecimal n (s.takeWhile isxdigit) = hexadecimal n s := by
  induction s generalizing n with
  | nil => rfl
  | cons c s ih =>
    cases hd : hexDigit c with
    | none =>
      have hc : isxdigit c = false := by simp [isxdigit, hd]
      rw [List.takeWhile_cons_of_neg (by simp [hc])]
      simp [hexadecimal, hd]
    | some d =>
      have hc : isxdigit c = true := by simp [isxdigit, hd]
      rw [List.takeWhile_cons_of_pos hc]
      simp only [hexadecimal, hd]
      exact ih _

theorem le_hexadecimal (n : Nat) (s : CStr) : n ≤ hexadecimal n s := by
  induction s generalizing n with
  | nil => exact le_refl n
  | cons c s ih =>
    unfold hexadecimal
    split
    · exact le_refl n
    · next d _ => exact le_trans (by omega) (ih (16 * n + d))

/-- More digits change the value, unless it is zero and they are zeros. -/
theorem hexadecimal_eq_self_iff {digits : CStr} (h : ∀ c ∈ digits, isxdigit c) (n : Nat) :
    hexadecimal n digits = n ↔ digits = [] ∨ n = 0 ∧ ∀ c ∈ digits, c = '0' := by
  induction digits generalizing n with
  | nil => simp [hexadecimal]
  | cons c digits ih =>
    obtain ⟨d, hd⟩ := Option.isSome_iff_exists.mp (h c List.mem_cons_self)
    have ih := ih (fun c hc => h c (List.mem_cons_of_mem _ hc)) (16 * n + d)
    have hle := le_hexadecimal (16 * n + d) digits
    simp only [hexadecimal, hd, List.forall_mem_cons, reduceCtorEq, false_or]
    constructor
    · intro heq
      have hn : n = 0 := by omega
      have hd0 : d = 0 := by omega
      subst hn hd0
      refine ⟨rfl, hexDigit_eq_zero.mp hd, ?_⟩
      rcases ih.mp (by simpa using heq) with rfl | ⟨_, hzeros⟩
      · exact fun c hc => absurd hc List.not_mem_nil
      · exact hzeros
    · rintro ⟨rfl, rfl, hzeros⟩
      obtain rfl : d = 0 := by simpa using hd.symm.trans (hexDigit_eq_zero.mpr rfl)
      exact ih.mpr (.inr ⟨rfl, hzeros⟩)

/-- No digit comes before `0`, and every space does. -/
theorem zero_le_of_isxdigit {c : Char} (h : isxdigit c) : '0'.toNat ≤ c.toNat := by
  unfold isxdigit hexDigit at h
  split at h
  · next hdigit =>
    have hlo : '0' ≤ c := by simpa using (Bool.and_eq_true_iff.mp hdigit).1
    exact hlo
  · split at h
    · next hlower =>
      have hlo : 'a'.toNat ≤ c.toNat := hlower.1
      exact le_trans (by decide) hlo
    · split at h
      · next hupper =>
        have hlo : 'A'.toNat ≤ c.toNat := hupper.1
        exact le_trans (by decide) hlo
      · cases h

theorem isspace_of_isxdigit {c : Char} (h : isxdigit c) : isspace c = false := by
  have hlo := zero_le_of_isxdigit h
  unfold isspace
  rw [Bool.or_eq_false_iff]
  constructor
  · rw [decide_eq_false_iff_not]
    rintro rfl
    exact absurd hlo (by decide)
  · rw [Bool.and_eq_false_iff]
    right
    rw [decide_eq_false_iff_not]
    intro hle
    have hhi : c.toNat ≤ '\r'.toNat := hle
    exact absurd (le_trans hlo hhi) (by decide)

/-- `strtol` reads a text that starts with a digit as a non-negative number. -/
theorem strtol16_of_isxdigit {c : Char} (h : isxdigit c) (s : CStr) :
    strtol16 (c :: s) = min (2 ^ 63 - 1) (hexadecimal 0 (skipPrefix (c :: s)) : Int) := by
  have hminus : c ≠ '-' := by rintro rfl; exact absurd h (by decide)
  have hplus : c ≠ '+' := by rintro rfl; exact absurd h (by decide)
  unfold strtol16
  rw [List.dropWhile_cons_of_neg (by simp [isspace_of_isxdigit h])]
  split
  · next heq => exact absurd (List.cons.inj heq).1 hminus
  · next heq => exact absurd (List.cons.inj heq).1 hplus
  · rfl

/-! ## What `atoi` makes of decimal numerals -/

/-- A decimal numeral: digits only, and at least one. -/
def IsNumeral (s : CStr) : Prop := s ≠ [] ∧ s.all isdigit = true

theorem isxdigit_of_isdigit {c : Char} (h : isdigit c = true) : isxdigit c := by
  unfold isxdigit hexDigit
  rw [if_pos h]
  rfl

/-- Digits are neither white space nor signs, so `strtol` reads all of them. -/
theorem strtol10_of_numeral {s : CStr} (h : IsNumeral s) :
    strtol10 s = min (2 ^ 63 - 1) (decimal s : Int) := by
  obtain ⟨c, s, rfl⟩ := List.exists_cons_of_ne_nil h.1
  have hc : isdigit c = true := List.all_eq_true.mp h.2 c List.mem_cons_self
  have hminus : c ≠ '-' := by rintro rfl; exact absurd hc (by decide)
  have hplus : c ≠ '+' := by rintro rfl; exact absurd hc (by decide)
  unfold strtol10
  rw [List.dropWhile_cons_of_neg (by simp [isspace_of_isxdigit (isxdigit_of_isdigit hc)])]
  split
  · next heq => exact absurd (List.cons.inj heq).1 hminus
  · next heq => exact absurd (List.cons.inj heq).1 hplus
  · rfl

/-- `atoi` is right on the numerals of `int`s. -/
theorem atoi_of_numeral {s : CStr} (h : IsNumeral s) (hlt : decimal s < 2 ^ 31) :
    atoi s = decimal s := by
  have hmin : min (2 ^ 63 - 1 : Int) (decimal s : Int) = decimal s := by
    apply min_eq_right
    omega
  unfold atoi
  rw [strtol10_of_numeral h, hmin, wrap32_of_range (by omega) (by omega)]

/-! ## Strings in buffers -/

/-- `strcat` to a buffer of `size` bytes, and `strcpy` when the buffer holds
    the empty string. `none` when the text and its NUL do not fit. -/
def strcat (size : Nat) (str suffix : CStr) : Option CStr :=
  if (str ++ suffix).length < size then some (str ++ suffix) else none

/-! ## Streams -/

/-- What a call of `fgets` reads, whether it hits the end of the stream, and
    what it leaves. -/
structure Fgets where
  line : CStr
  eof : Bool
  rest : CStr
  deriving DecidableEq, Repr

/-- `fgets` with room for `n` characters and a NUL. It stops after a newline,
    when there is no room left, or at the end of the stream; it returns NULL
    when it has read nothing. -/
def fgets : Nat → CStr → Fgets
  | 0, s => ⟨[], false, s⟩
  | _ + 1, [] => ⟨[], true, []⟩
  | n + 1, c :: s =>
    if c = '\n' then ⟨[c], false, s⟩
    else
      let r := fgets n s
      ⟨c :: r.line, r.eof, r.rest⟩

/-- What the rounds of `while (fgets(..))` read. Each one reads a character,
    so the length of the stream is enough fuel. -/
def fgetsAll (n : Nat) : Nat → CStr → List CStr
  | 0, _ => []
  | fuel + 1, s =>
    let r := fgets n s
    if r.line = [] then [] else r.line :: fgetsAll n fuel r.rest

theorem length_fgets_le (n : Nat) (s : CStr) : (fgets n s).line.length ≤ n := by
  induction n, s using fgets.induct with
  | case1 s => exact le_refl 0
  | case2 n => exact Nat.zero_le _
  | case3 n s => simp [fgets]
  | case4 n c s hc ih => simpa [fgets, hc] using ih

/-- A read that does not hit the end of the stream ends at a newline or when
    there is no room left. -/
theorem fgets_not_eof {n : Nat} {s : CStr} (h : (fgets n s).eof = false) :
    (fgets n s).line.getLast? = some '\n' ∨ (fgets n s).line.length = n := by
  induction n, s using fgets.induct with
  | case1 s => exact .inr rfl
  | case2 n => cases h
  | case3 n s => exact .inl (by simp [fgets])
  | case4 n c s hc ih =>
    simp only [fgets, if_neg hc] at h ⊢
    cases ih h with
    | inl hlast => exact .inl (by rw [List.getLast?_cons, hlast]; rfl)
    | inr hlen => exact .inr (by rw [List.length_cons, hlen])

/-- A line that ends in its newline, or fills the room exactly, is read in one
    call, which does not look any further. -/
theorem fgets_line {n : Nat} {line : CStr} (hlen : line.length ≤ n) (hnl : '\n' ∉ line.dropLast)
    (h : line.getLast? = some '\n' ∨ line.length = n) (rest : CStr) :
    fgets n (line ++ rest) = ⟨line, false, rest⟩ := by
  induction line generalizing n with
  | nil =>
    obtain rfl : n = 0 := h.elim (fun hlast => nomatch hlast) Eq.symm
    rfl
  | cons c line ih =>
    obtain ⟨n, rfl⟩ := Nat.exists_eq_add_of_le' (Nat.le_trans (Nat.le_add_left 1 _) hlen)
    rw [List.cons_append, fgets]
    by_cases hline : line = []
    · subst hline
      by_cases hc : c = '\n'
      · rw [if_pos hc]
        rfl
      · -- no newline, so the room is used up
        have hfull : n = 0 := by
          cases h with
          | inl hlast => exact absurd (Option.some.inj hlast) hc
          | inr hfull => exact (Nat.succ.inj hfull).symm
        rw [if_neg hc, hfull]
        rfl
    · rw [List.dropLast_cons_of_ne_nil hline] at hnl
      have hc : c ≠ '\n' := fun heq => hnl (heq ▸ List.mem_cons_self)
      have h' : line.getLast? = some '\n' ∨ line.length = n := by
        cases h with
        | inl hlast => exact .inl (by rwa [List.getLast?_cons_of_ne_nil hline] at hlast)
        | inr hfull => exact .inr (Nat.succ.inj hfull)
      rw [if_neg hc, ih (Nat.le_of_succ_le_succ hlen)
        (fun hmem => hnl (List.mem_cons_of_mem c hmem)) h']

/-- A text of lines that fit is read line by line. -/
theorem fgetsAll_lines {n : Nat} {lines : List CStr}
    (h : ∀ line ∈ lines, line.length < n ∧ '\n' ∉ line) {fuel : Nat}
    (hfuel : (lines.map (· ++ ['\n'])).flatten.length ≤ fuel) :
    fgetsAll n fuel (lines.map (· ++ ['\n'])).flatten = lines.map (· ++ ['\n']) := by
  induction lines generalizing fuel with
  | nil =>
    cases fuel with
    | zero => rfl
    | succ fuel => cases n <;> rfl
  | cons line lines ih =>
    obtain ⟨⟨hlen, hnl⟩, hrest⟩ := List.forall_mem_cons.mp h
    rw [List.map_cons, List.flatten_cons, List.length_append, List.length_append,
      List.length_singleton] at hfuel
    obtain ⟨fuel, rfl⟩ := Nat.exists_eq_add_of_le' (show 1 ≤ fuel by omega)
    have hread : fgets n (line ++ ['\n'] ++ (lines.map (· ++ ['\n'])).flatten) =
        ⟨line ++ ['\n'], false, (lines.map (· ++ ['\n'])).flatten⟩ := by
      refine fgets_line ?_ ?_ (.inl List.getLast?_concat) _
      · rw [List.length_append, List.length_singleton]
        omega
      · rwa [List.dropLast_concat]
    have hne : line ++ ['\n'] ≠ [] := List.append_ne_nil_of_right_ne_nil _ (List.cons_ne_nil _ _)
    rw [List.map_cons, List.flatten_cons, fgetsAll, hread]
    dsimp only
    rw [if_neg hne, ih hrest (by omega)]

/-- The lines of a text, each with its newline. The last one may have none. -/
def eachLine : CStr → List CStr
  | [] => []
  | c :: s =>
    if c = '\n' then [c] :: eachLine s
    else
      match eachLine s with
      | [] => [[c]]
      | line :: lines => (c :: line) :: lines

theorem eachLine_eq {s : CStr} (hs : s ≠ []) :
    ∃ line rest, s = line ++ rest ∧ eachLine s = line :: eachLine rest ∧ line ≠ [] ∧
      '\n' ∉ line.dropLast ∧
      (line.getLast? = some '\n' ∨ rest = []) := by
  induction s with
  | nil => exact absurd rfl hs
  | cons c s ih =>
    by_cases hc : c = '\n'
    · exact ⟨[c], s, rfl, by rw [eachLine, if_pos hc], List.cons_ne_nil _ _, List.not_mem_nil,
        .inl (congrArg some hc)⟩
    · by_cases hs : s = []
      · subst hs
        exact ⟨[c], [], rfl, by simp [eachLine, hc], List.cons_ne_nil _ _,
          List.not_mem_nil, .inr rfl⟩
      · obtain ⟨line, rest, hsplit, hlines, hne, hnl, hend⟩ := ih hs
        refine ⟨c :: line, rest, by rw [hsplit]; rfl, ?_, List.cons_ne_nil _ _, ?_, ?_⟩
        · rw [eachLine, if_neg hc, hlines]
        · rw [List.dropLast_cons_of_ne_nil hne]
          intro hmem
          cases List.mem_cons.mp hmem with
          | inl heq => exact hc heq.symm
          | inr hmem => exact hnl hmem
        · rwa [List.getLast?_cons_of_ne_nil hne]

end CLib
