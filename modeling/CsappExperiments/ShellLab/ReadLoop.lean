import CsappExperiments.ShellLab.Arguments

/-! # Shell Lab: the read/eval loop

    How `main` cuts its input into command lines. Three places assume that a
    line ends in a newline and fits into `cmdline`: `fgets` stops when there
    is no room left, `feof` is tested before the line is evaluated, and
    `parseline` overwrites the last character.

    `framed_iff` says for which inputs the shell evaluates the lines of its
    input, each one as a whole. The input contains no NUL, and the shell alone
    consumes it: a child shares the offset of a standard input that can seek,
    and its `exit(0)` after a failed `execvp` may move it. This is not modelled.
-/

open CLib

namespace Shell

/-! ## Section 1: Model -/

/-- `eval` returns to the loop. It does not where `parseline` leaves its
    arrays, and on the command `quit`. -/
def evalReturns (cmdline : CStr) : Bool :=
  match parseline cmdline with
  | none => false
  | some (_, argv) => argv.head?.bind builtinCmd ≠ some .quit

/-- The lines that `main` hands to `eval`. Every round reads a character, so
    the length of the input is enough fuel. -/
def commands : Nat → CStr → List CStr
  | 0, _ => []
  | fuel + 1, stdin =>
    let r := fgets (MAXLINE - 1) stdin
    if r.eof then []
    else r.line :: if evalReturns r.line then commands fuel r.rest else []

/-- The characters that `parseline` cuts into arguments. -/
def buffer (cmdline : CStr) : CStr := cmdline.dropLast ++ [' ']

/-! ## Section 2: Purpose -/

/-- A line without its newline. -/
def chomp (line : CStr) : CStr := if line.getLast? = some '\n' then line.dropLast else line

/-- The arguments on a line, however long it is. -/
def arguments (line : CStr) : List CStr := buildArgv (line.length + 1) (skipSpaces (line ++ [' ']))

/-- The line tells the shell to quit. -/
def Quits (line : CStr) : Prop := (arguments line).head? = some ['q', 'u', 'i', 't']

instance (line : CStr) : Decidable (Quits line) := inferInstanceAs (Decidable (_ = _))

/-- The lines that a shell has to evaluate: all of them, up to the one that
    tells it to quit. -/
def dueLines : List CStr → List CStr
  | [] => []
  | line :: lines => line :: if Quits (chomp line) then [] else dueLines lines

/-- `parseline` works on all characters of the line and on nothing else, but
    for a space at its end, and returns the arguments on it. -/
def Intact (line : CStr) : Prop :=
  (buffer line = chomp line ∨ buffer line = chomp line ++ [' ']) ∧
    ∃ bg argv, parseline line = some (bg, argv) ∧ outcome (arguments (chomp line)) = some (bg, argv)

/-- The shell evaluates each line of its input once and as a whole. -/
def Framed (stdin : CStr) : Prop :=
  commands stdin.length stdin = dueLines (eachLine stdin) ∧
    ∀ line ∈ dueLines (eachLine stdin), Intact line

/-- The line ends in a newline and fits into `cmdline`, or it fills `cmdline`
    up to its last character, which is a space. The arguments fit into `argv`. -/
def Fits (line : CStr) : Prop :=
  (line.length < MAXLINE ∧ line.getLast? = some '\n' ∨
    line.length = MAXLINE - 1 ∧ line.getLast? = some ' ') ∧
    (arguments (chomp line)).length < MAXARGS

theorem arguments_written {line : CStr} {args : List Arg} {opened : Option CStr}
    (h : Written line args opened) :
    arguments line = args.map Arg.text := by
  exact buildArgv_written h (getLast?_append_space line) (by simp [spaces])

/-! ## Section 3: One line -/

theorem chomp_of_newline {line : CStr} (h : line.getLast? = some '\n') :
    chomp line = line.dropLast := if_pos h

theorem chomp_of_not_newline {line : CStr} (h : line.getLast? ≠ some '\n') : chomp line = line :=
  if_neg h

theorem getLast?_buffer (line : CStr) : (buffer line).getLast? = some ' ' := List.getLast?_concat

theorem buffer_eq_self {line : CStr} (h : line.getLast? = some ' ') : buffer line = line := by
  obtain ⟨init, rfl⟩ := List.getLast?_eq_some_iff.mp h
  unfold buffer
  rw [List.dropLast_concat]

/-- The arguments that `parseline` finds in its buffer are those on the line. -/
theorem buildArgv_buffer {line : CStr}
    (h : buffer line = chomp line ∨ buffer line = chomp line ++ [' ']) :
    buildArgv (buffer line).length (skipSpaces (buffer line)) = arguments (chomp line) := by
  obtain ⟨args, opened, hwritten⟩ := exists_written (chomp line)
  rw [arguments_written hwritten]
  cases h with
  | inl h =>
    have hlast : ∀ c ∈ (chomp line ++ spaces 0).getLast?, c = ' ' := by
      intro c hc
      rw [show spaces 0 = [] from rfl, List.append_nil, ← h, getLast?_buffer] at hc
      exact (Option.some.inj hc).symm
    rw [h]
    have hargs := buildArgv_written hwritten hlast (le_refl _)
    rwa [show spaces 0 = [] from rfl, List.append_nil] at hargs
  | inr h =>
    rw [h]
    exact buildArgv_written hwritten (getLast?_append_space _) (le_refl _)

theorem Fits.intact {line : CStr} (h : Fits line) : Intact line := by
  obtain ⟨hend, hroom⟩ := h
  -- `parseline` turns the newline into a space, or the last space into itself
  have hbuffer : buffer line = chomp line ∨ buffer line = chomp line ++ [' '] := by
    cases hend with
    | inl h =>
      right
      rw [chomp_of_newline h.2]
      rfl
    | inr h =>
      left
      rw [buffer_eq_self h.2, chomp_of_not_newline (by rw [h.2]; decide)]
  have hlen : line.length < MAXLINE := by
    cases hend with
    | inl h => exact h.1
    | inr h => exact h.1 ▸ (by decide)
  have hne : line ≠ [] := by
    rintro rfl
    cases hend with
    | inl h => cases h.2
    | inr h => cases h.2
  have hparse : parseline line = outcome (arguments (chomp line)) := by
    rw [parseline_eq hne hlen, ← buildArgv_buffer hbuffer]
    rfl
  cases houtcome : outcome (arguments (chomp line)) with
  | none => exact absurd ((outcome_eq_none_iff _).mp houtcome) (Nat.not_le_of_lt hroom)
  | some res => exact ⟨hbuffer, res.1, res.2, hparse.trans houtcome, houtcome⟩

theorem builtinCmd_quit_iff (argv0 : CStr) :
    builtinCmd argv0 = some .quit ↔ argv0 = ['q', 'u', 'i', 't'] := by
  unfold builtinCmd
  split
  · next h => exact iff_of_true rfl h
  · next h =>
    refine iff_of_false ?_ h
    split
    · simp
    · split
      · simp
      · split <;> simp

/-- Dropping an `&` does not touch a `quit` in front. -/
theorem head?_outcome {texts argv : List CStr} {bg : Bool} (h : outcome texts = some (bg, argv)) :
    argv.head? = some ['q', 'u', 'i', 't'] ↔ texts.head? = some ['q', 'u', 'i', 't'] := by
  unfold outcome at h
  split at h
  · cases h
  split at h
  · next hlast =>
    obtain ⟨_, rfl⟩ := Prod.mk.inj (Option.some.inj h)
    rw [List.getLast?_eq_none_iff.mp hlast]
  · next last hlast =>
    by_cases hamp : last.head? = some '&'
    · rw [if_pos hamp] at h
      obtain ⟨_, rfl⟩ := Prod.mk.inj (Option.some.inj h)
      -- a lone `&` is not `quit`
      match texts with
      | [text] =>
        obtain rfl : text = last := Option.some.inj hlast
        refine iff_of_false (fun heq => nomatch heq) ?_
        intro heq
        rw [Option.some.inj heq] at hamp
        exact absurd hamp (by decide)
      | _ :: _ :: _ => rfl
    · rw [if_neg hamp] at h
      obtain ⟨_, rfl⟩ := Prod.mk.inj (Option.some.inj h)
      rfl

theorem evalReturns_iff {line : CStr} (h : Intact line) :
    evalReturns line = true ↔ ¬ Quits (chomp line) := by
  obtain ⟨_, bg, argv, hparse, houtcome⟩ := h
  unfold evalReturns Quits
  rw [hparse, ← head?_outcome houtcome]
  cases argv with
  | nil => simp
  | cons argv0 argv => simp [builtinCmd_quit_iff]

/-! ## Section 4: Whole inputs -/

theorem commands_nil (fuel : Nat) : commands fuel [] = [] := by
  cases fuel <;> rfl

/-- Lines that fit are evaluated one by one. -/
theorem commands_of_fits {fuel : Nat} {stdin : CStr} (hfuel : stdin.length ≤ fuel)
    (hfits : ∀ line ∈ dueLines (eachLine stdin), Fits line) :
    commands fuel stdin = dueLines (eachLine stdin) := by
  induction fuel generalizing stdin with
  | zero =>
    rw [List.length_eq_zero_iff.mp (Nat.le_zero.mp hfuel)]
    rfl
  | succ fuel ih =>
    by_cases hstdin : stdin = []
    · subst hstdin
      exact commands_nil _
    obtain ⟨line, rest, rfl, hlines, hne, hnl, _⟩ := eachLine_eq hstdin
    rw [hlines, dueLines] at hfits ⊢
    have hline : Fits line := hfits line List.mem_cons_self
    -- `fgets` takes the whole line and does not see the end of the file
    have hread : fgets (MAXLINE - 1) (line ++ rest) = ⟨line, false, rest⟩ := by
      cases hline.1 with
      | inl h => exact fgets_line (Nat.le_pred_of_lt h.1) hnl (.inl h.2) rest
      | inr h => exact fgets_line (Nat.le_of_eq h.1) hnl (.inr h.1) rest
    have hreturns := evalReturns_iff hline.intact
    rw [commands, hread]
    simp only [Bool.false_eq_true, if_false]
    by_cases hquit : Quits (chomp line)
    · rw [if_pos hquit, if_neg (by rwa [hreturns, not_not])]
    · rw [if_neg hquit] at hfits ⊢
      rw [if_pos (hreturns.mpr hquit)]
      have hpos := List.length_pos_iff.mpr hne
      rw [List.length_append] at hfuel
      rw [ih (by omega) fun line hmem => hfits line (List.mem_cons_of_mem _ hmem)]

theorem exists_read_of_mem_commands {fuel : Nat} {stdin line : CStr}
    (h : line ∈ commands fuel stdin) :
    ∃ stdin', (fgets (MAXLINE - 1) stdin').eof = false ∧
      (fgets (MAXLINE - 1) stdin').line = line := by
  induction fuel generalizing stdin with
  | zero => cases h
  | succ fuel ih =>
    rw [commands] at h
    split at h
    · cases h
    · next heof =>
      cases List.mem_cons.mp h with
      | inl heq => exact ⟨stdin, by simpa using heof, heq.symm⟩
      | inr hmem =>
        split at hmem
        · exact ih hmem
        · cases hmem

/-- What has been read in one call and is intact does fit. -/
theorem fits_of_read {stdin line : CStr} (heof : (fgets (MAXLINE - 1) stdin).eof = false)
    (hread : (fgets (MAXLINE - 1) stdin).line = line) (h : Intact line) : Fits line := by
  have hlen := length_fgets_le (MAXLINE - 1) stdin
  have hend := fgets_not_eof heof
  rw [hread] at hlen hend
  obtain ⟨hbuffer, bg, argv, _, houtcome⟩ := h
  have hroom : (arguments (chomp line)).length < MAXARGS := by
    apply Nat.lt_of_not_le
    intro hfull
    rw [(outcome_eq_none_iff _).mpr hfull] at houtcome
    cases houtcome
  refine ⟨?_, hroom⟩
  by_cases hnl : line.getLast? = some '\n'
  · exact .inl ⟨Nat.lt_of_le_of_lt hlen (by decide), hnl⟩
  · have hfull : line.length = MAXLINE - 1 := hend.resolve_left hnl
    rw [chomp_of_not_newline hnl] at hbuffer
    -- the last character has been overwritten
    cases hbuffer with
    | inl h => exact .inr ⟨hfull, by rw [← h, getLast?_buffer]⟩
    | inr h =>
      have hlen := congrArg List.length h
      unfold buffer at hlen
      simp only [List.length_append, List.length_dropLast, hfull] at hlen
      exact absurd hlen (by decide)

/-- Command framing. The shell evaluates the lines of its input, each one once
    and with all its characters, exactly when all of them fit, up to the one
    that tells it to quit. -/
theorem framed_iff (stdin : CStr) :
    Framed stdin ↔ ∀ line ∈ dueLines (eachLine stdin), Fits line := by
  constructor
  · rintro ⟨hlines, hintact⟩ line hmem
    obtain ⟨stdin', heof, hread⟩ := exists_read_of_mem_commands (hlines ▸ hmem)
    exact fits_of_read heof hread (hintact line hmem)
  · intro hfits
    exact ⟨commands_of_fits (le_refl _) hfits, fun line hmem => (hfits line hmem).intact⟩

/-- The input `ls`, which is not evaluated at all, and a line of 1023 letters
    and a newline, which makes two commands. -/
theorem not_framed : ¬ Framed ['l', 's'] ∧ ¬ Framed (List.replicate 1023 'a' ++ ['\n']) := by
  constructor
  · rintro ⟨hlines, _⟩
    exact absurd hlines (by decide)
  · rintro ⟨hlines, _⟩
    have hone (n : Nat) :
        eachLine (List.replicate n 'a' ++ ['\n']) = [List.replicate n 'a' ++ ['\n']] := by
      induction n with
      | zero => rfl
      | succ n ih => simp [List.replicate_succ, eachLine, ih]
    have hmem : List.replicate 1023 'a' ++ ['\n'] ∈
        dueLines (eachLine (List.replicate 1023 'a' ++ ['\n'])) := by
      rw [hone]
      exact List.mem_cons_self
    obtain ⟨stdin, _, hread⟩ := exists_read_of_mem_commands (hlines ▸ hmem)
    have hlen := length_fgets_le (MAXLINE - 1) stdin
    rw [hread, List.length_append, List.length_replicate] at hlen
    exact absurd hlen (by decide)

end Shell
