import Mathlib.Data.List.TakeWhile
import CsappExperiments.ShellLab.CommandLine

/-! # Shell Lab: the arguments on a command line

    How a line is put together: arguments, each bare or between single
    quotes, with spaces around them (`Written`). Every line can be read that
    way, except that its end may be a quote that is never closed.

    `parseline` finds exactly the arguments that are written on the line
    (`buildArgv_written`). What goes beyond that is the test for `&`, which
    looks at one character of the last argument and does not know whether it
    stood in quotes, and the text behind an unclosed quote, which is dropped.
-/

open CLib

namespace Shell

/-! ## Section 1: Arguments as they are written -/

/-- One argument on a command line. -/
inductive Arg where
  /-- Up to the next space. -/
  | bare (text : CStr) (nonempty : text ≠ []) (hspace : ' ' ∉ text)
    (hquote : text.head? ≠ some '\'')
  /-- Between single quotes. -/
  | quoted (text : CStr) (hquote : '\'' ∉ text)
  deriving DecidableEq

def Arg.text : Arg → CStr
  | .bare text _ _ _ => text
  | .quoted text _ => text

/-- The argument with its quotes. -/
def Arg.written : Arg → CStr
  | .bare text _ _ _ => text
  | .quoted text _ => '\'' :: text ++ ['\'']

/-- The argument `&`. -/
def Arg.amp : Arg := .bare ['&'] (by decide) (by decide) (by decide)

/-- A bare argument ends at a space or at the end of the line. -/
def Arg.EndsAt (a : Arg) (rest : CStr) : Prop :=
  match a with
  | .bare .. => ∀ c ∈ rest.head?, c = ' '
  | .quoted .. => True

def spaces (n : Nat) : CStr := List.replicate n ' '

/-- The line consists of these arguments, with spaces around them, and of the
    text behind a quote that is opened and not closed, if there is one. -/
inductive Written : CStr → List Arg → Option CStr → Prop where
  | blank (n : Nat) : Written (spaces n) [] none
  | unclosed (n : Nat) (text : CStr) (h : '\'' ∉ text) :
    Written (spaces n ++ '\'' :: text) [] (some text)
  | arg (n : Nat) (a : Arg) {rest : CStr} {args : List Arg} {opened : Option CStr}
    (hend : a.EndsAt rest)
      (h : Written rest args opened) : Written (spaces n ++ (a.written ++ rest)) (a :: args) opened

/-- A line, read as arguments. -/
structure Reading (line : CStr) where
  args : List Arg
  opened : Option CStr
  written : Written line args opened

/-- The texts of the arguments. -/
def Reading.texts {line : CStr} (r : Reading line) : List CStr := r.args.map Arg.text

theorem exists_cut (p : Char → Bool) (s : CStr) :
    ∃ pre post, s = pre ++ post ∧ (∀ c ∈ pre, p c = true) ∧ ∀ c ∈ post.head?, p c = false := by
  refine ⟨s.takeWhile p, s.dropWhile p, List.takeWhile_append_dropWhile.symm, fun c =>
    List.mem_takeWhile_imp, ?_⟩
  intro c hc
  have hhead := List.head?_dropWhile_not p s
  rw [Option.mem_def.mp hc] at hhead
  simpa using hhead

/-- Every line can be read as arguments. -/
theorem exists_written (line : CStr) : ∃ args opened, Written line args opened := by
  -- what follows an argument is a shorter line
  induction hn : line.length using Nat.strong_induction_on generalizing line with
  | _ n ih =>
    subst hn
    obtain ⟨lead, s, rfl, hlead, hs⟩ := exists_cut (· = ' ') line
    obtain ⟨k, rfl⟩ : ∃ k, lead = spaces k :=
      ⟨lead.length, List.eq_replicate_of_mem (by simpa using hlead)⟩
    match s, hs with
    | [], _ => exact ⟨[], none, by rw [List.append_nil]; exact .blank k⟩
    | c :: s, hs =>
      by_cases hc : c = '\''
      · subst hc
        by_cases hclosed : '\'' ∈ s
        · obtain ⟨text, rest, rfl, htext⟩ := List.eq_append_cons_of_mem hclosed
          obtain ⟨args, opened, hrest⟩ := ih rest.length (by simp; omega) rest rfl
          have h := Written.arg k (.quoted text htext) trivial hrest
          exact ⟨_, _, by simpa [Arg.written] using h⟩
        · exact ⟨[], some s, .unclosed k s hclosed⟩
      · -- a bare argument goes up to the next space
        obtain ⟨text, rest, htext, hbare, hrest⟩ := exists_cut (· ≠ ' ') (c :: s)
        have hspace : c ≠ ' ' := by simpa using hs c rfl
        obtain ⟨text, rfl⟩ : ∃ text', text = c :: text' := by
          cases text with
          | nil =>
            rw [List.nil_append] at htext
            subst htext
            exact absurd (by simpa using hrest c rfl) hspace
          | cons d text => exact ⟨text, by rw [(List.cons.inj htext).1]⟩
        have hlen : rest.length < (spaces k ++ c :: s).length := by
          rw [htext]
          simp
          omega
        obtain ⟨args, opened, hwritten⟩ := ih rest.length hlen rest rfl
        have ha : ' ' ∉ c :: text := fun hmem => by simpa using hbare ' ' hmem
        have hend :
            (Arg.bare (c :: text) (List.cons_ne_nil _ _) ha (by simpa using hc)).EndsAt rest := by
          intro d hd
          simpa using hrest d hd
        rw [htext]
        exact ⟨_, _, .arg k _ hend hwritten⟩

/-! ## Section 2: `parseline` and the arguments on the line -/

theorem strchr_append {c : Char} {pre : CStr} (h : c ∉ pre) (post : CStr) :
    strchr c (pre ++ c :: post) = some (pre, post) := by
  induction pre with
  | nil => simp [strchr]
  | cons x pre ih =>
    have hx : x ≠ c := fun heq => h (heq ▸ List.mem_cons_self)
    rw [List.cons_append, strchr, if_neg hx, ih fun hmem => h (List.mem_cons_of_mem x hmem)]
    rfl

theorem strchr_eq_none {c : Char} {s : CStr} (h : c ∉ s) : strchr c s = none := by
  induction s with
  | nil => rfl
  | cons x s ih =>
    have hx : x ≠ c := fun heq => h (heq ▸ List.mem_cons_self)
    rw [strchr, if_neg hx, ih fun hmem => h (List.mem_cons_of_mem x hmem)]
    rfl

theorem delim_bare {c : Char} (h : c ≠ '\'') (s : CStr) : delim (c :: s) = strchr ' ' (c :: s) := by
  unfold delim
  split
  · next heq => exact absurd (List.cons.inj heq).1 h
  · rfl

theorem skipSpaces_append (n : Nat) (s : CStr) : skipSpaces (spaces n ++ s) = skipSpaces s := by
  unfold skipSpaces spaces
  exact List.dropWhile_append_of_pos (by simp)

theorem skipSpaces_cons {c : Char} (h : c ≠ ' ') (s : CStr) : skipSpaces (c :: s) = c :: s := by
  unfold skipSpaces
  exact List.dropWhile_cons_of_neg (by simpa using h)

theorem skipSpaces_spaces (n : Nat) : skipSpaces (spaces n) = [] := by
  have h := skipSpaces_append n []
  rwa [List.append_nil] at h

/-- At the start of an argument, it is cut out up to its delimiter. -/
theorem delim_written (a : Arg) {s : CStr} (hend : a.EndsAt s) (hs : s ≠ []) :
    ∃ rest, delim (a.written ++ s) = some (a.text, rest) ∧ skipSpaces rest = skipSpaces s ∧
      rest.length ≤ s.length := by
  cases a with
  | bare text hne hspace hquote =>
    obtain ⟨c, rest, rfl⟩ := List.exists_cons_of_ne_nil hs
    obtain rfl : c = ' ' := hend c rfl
    obtain ⟨d, text, rfl⟩ := List.exists_cons_of_ne_nil hne
    have hd : d ≠ '\'' := fun heq => hquote (by rw [heq]; rfl)
    refine ⟨rest, ?_, (skipSpaces_append 1 rest).symm, Nat.le_succ _⟩
    show delim (d :: (text ++ ' ' :: rest)) = _
    rw [delim_bare hd, ← List.cons_append, strchr_append hspace]
    rfl
  | quoted text hquote =>
    refine ⟨s, ?_, rfl, le_refl _⟩
    show strchr '\'' ((text ++ ['\'']) ++ s) = _
    rw [List.append_assoc, List.singleton_append, strchr_append hquote]
    rfl

theorem Arg.written_ne_nil (a : Arg) : a.written ≠ [] := by
  cases a with
  | bare text hne => exact hne
  | quoted text => exact List.cons_ne_nil _ _

theorem Arg.skipSpaces_written (a : Arg) (s : CStr) :
    skipSpaces (a.written ++ s) = a.written ++ s := by
  cases a with
  | bare text hne hspace =>
    obtain ⟨d, text, rfl⟩ := List.exists_cons_of_ne_nil hne
    exact skipSpaces_cons (fun heq => hspace (heq ▸ List.mem_cons_self)) _
  | quoted text => exact skipSpaces_cons (by decide) _

theorem Arg.last_written (a : Arg) : ∃ c, a.written.getLast? = some c ∧ c ≠ ' ' := by
  cases a with
  | bare text hne hspace =>
    refine ⟨text.getLast hne, List.getLast?_eq_getLast_of_ne_nil hne, ?_⟩
    intro heq
    exact hspace (heq ▸ List.getLast_mem hne)
  | quoted text => exact ⟨'\'', List.getLast?_concat, by decide⟩

theorem Arg.EndsAt.append_spaces {a : Arg} {rest : CStr} (h : a.EndsAt rest) (m : Nat) :
    a.EndsAt (rest ++ spaces m) := by
  cases a with
  | bare text =>
    intro c hc
    cases rest with
    | nil => exact List.eq_of_mem_replicate (List.mem_of_mem_head? hc)
    | cons d rest => exact h c hc
  | quoted text => trivial

/-- The loop of `parseline` finds the arguments on the line, whether a space
    has been put behind it or it ends in one. -/
theorem buildArgv_written {line : CStr} {args : List Arg} {opened : Option CStr}
    (h : Written line args opened) {m : Nat} (hlast : ∀ c ∈ (line ++ spaces m).getLast?, c = ' ')
    {fuel : Nat} (hfuel : (line ++ spaces m).length ≤ fuel) :
    buildArgv fuel (skipSpaces (line ++ spaces m)) = args.map Arg.text := by
  induction h generalizing fuel with
  | blank n =>
    rw [skipSpaces_append, skipSpaces_spaces]
    cases fuel <;> rfl
  | unclosed n text h =>
    rw [List.append_assoc, skipSpaces_append, List.cons_append, skipSpaces_cons (by decide)]
    have hnone : strchr '\'' (text ++ spaces m) = none := strchr_eq_none (by simp [h, spaces])
    cases fuel with
    | zero => rfl
    | succ fuel => simp [buildArgv, delim, hnone]
  | @arg n a rest args opened hend h ih =>
    have hsplit : spaces n ++ (a.written ++ rest) ++ spaces m =
        spaces n ++ (a.written ++ (rest ++ spaces m)) := by
      simp only [List.append_assoc]
    rw [hsplit] at hlast hfuel ⊢
    rw [skipSpaces_append, a.skipSpaces_written]
    -- something follows the argument, as it does not end in a space itself
    have hne : rest ++ spaces m ≠ [] := by
      intro hnil
      rw [hnil, List.append_nil] at hlast
      obtain ⟨c, hc, hspace⟩ := a.last_written
      exact hspace (hlast c (by rw [List.getLast?_append, hc]; rfl))
    obtain ⟨rest', hdelim, hskip, hlen⟩ := delim_written a (hend.append_spaces m) hne
    have hlast' : ∀ c ∈ (rest ++ spaces m).getLast?, c = ' ' := by
      intro c hc
      refine hlast c ?_
      rw [List.getLast?_append, List.getLast?_append, Option.mem_def.mp hc]
      rfl
    obtain ⟨fuel, rfl⟩ : ∃ f, fuel = f + 1 := Nat.exists_eq_add_one.mpr (by
      have hpos := List.length_pos_iff.mpr a.written_ne_nil
      simp only [List.length_append] at hfuel
      omega)
    rw [List.map_cons, buildArgv, hdelim]
    simp only [hskip]
    refine congrArg _ (ih hlast' ?_)
    have hpos := List.length_pos_iff.mpr a.written_ne_nil
    simp only [List.length_append] at hfuel ⊢
    omega

/-- What `parseline` returns for these arguments. -/
def outcome (texts : List CStr) : Option (Bool × List CStr) :=
  if MAXARGS ≤ texts.length then none
  else
    match texts.getLast? with
    | none => some (true, [])
    | some last =>
      if last.head? = some '&' then some (true, texts.dropLast) else some (false, texts)

theorem parseline_eq {cmdline : CStr} (hne : cmdline ≠ []) (hlen : cmdline.length < MAXLINE) :
    parseline cmdline =
      outcome (buildArgv (cmdline.dropLast ++ [' ']).length
        (skipSpaces (cmdline.dropLast ++ [' ']))) := by
  unfold parseline
  rw [if_neg (by simp [hne, hlen])]
  rfl

theorem getLast?_append_space (line : CStr) : ∀ c ∈ (line ++ spaces 1).getLast?, c = ' ' := by
  intro c hc
  rw [show spaces 1 = [' '] from rfl, List.getLast?_concat] at hc
  exact (Option.some.inj hc).symm

theorem parseline_written {line : CStr} {args : List Arg} {opened : Option CStr}
    (h : Written line args opened) (hlen : line.length + 1 < MAXLINE) :
    parseline (line ++ ['\n']) = outcome (args.map Arg.text) := by
  rw [parseline_eq (by simp) (by simpa using hlen), List.dropLast_concat]
  exact congrArg outcome (buildArgv_written h (getLast?_append_space line) (le_refl _))

theorem outcome_append {texts : List CStr} (hlen : texts.length + 1 < MAXARGS) (last : CStr) :
    outcome (texts ++ [last]) =
      if last.head? = some '&' then some (true, texts) else some (false, texts ++ [last]) := by
  unfold outcome
  rw [if_neg (by simpa using hlen), List.getLast?_concat, List.dropLast_concat]

theorem outcome_eq_none_iff (texts : List CStr) :
    outcome texts = none ↔ MAXARGS ≤ texts.length := by
  unfold outcome
  split
  · next hfull => exact iff_of_true rfl hfull
  · next hroom =>
    refine iff_of_false ?_ hroom
    split
    · simp
    · split <;> simp

theorem length_le_of_outcome {texts argv : List CStr} {bg : Bool}
    (h : outcome texts = some (bg, argv)) :
    argv.length ≤ texts.length := by
  unfold outcome at h
  split at h
  · cases h
  split at h
  · obtain ⟨_, rfl⟩ := Prod.mk.inj (Option.some.inj h)
    exact Nat.zero_le _
  split at h <;> obtain ⟨_, rfl⟩ := Prod.mk.inj (Option.some.inj h)
  · exact (List.dropLast_sublist _).length_le
  · exact le_refl _

/-! ## Section 3: Round trip -/

/-- A line written from arguments, each with the number of spaces behind it. -/
def render (lead : Nat) (args : List (Arg × Nat)) : CStr :=
  spaces lead ++ args.flatMap fun (a, gap) => a.written ++ spaces gap

theorem written_render (lead : Nat) {args : List (Arg × Nat)}
    (hgaps : ∀ e ∈ args.dropLast, 1 ≤ e.2) :
    Written (render lead args) (args.map Prod.fst) none := by
  induction args generalizing lead with
  | nil =>
    have h := Written.blank lead
    simpa [render] using h
  | cons e args ih =>
    obtain ⟨a, gap⟩ := e
    have hsplit : render lead ((a, gap) :: args) =
        spaces lead ++ (a.written ++ render gap args) := by
      simp [render]
    rw [hsplit]
    -- an argument ends at the gap behind it, or at the end of the line
    refine .arg lead a ?_ (ih gap ?_)
    · cases args with
      | nil =>
        have h : a.EndsAt [] := by
          cases a with
          | bare text =>
            intro c hc
            cases hc
          | quoted text => trivial
        simpa [render] using h.append_spaces gap
      | cons e args =>
        have hgap : 1 ≤ gap := hgaps (a, gap) (by simp)
        obtain ⟨k, rfl⟩ := Nat.exists_eq_add_of_le' hgap
        cases a with
        | bare text =>
          intro c hc
          exact (Option.some.inj hc).symm
        | quoted text => trivial
    · intro e he
      cases args with
      | nil => cases he
      | cons e' args => exact hgaps e (by simpa using .inr he)

/-- The round trip. Fewer than 127 arguments are written on a line that
    `fgets` can read at once, with spaces around them, and the last one does
    not start with `&`: `parseline` returns exactly them, and false (true if
    there are none). With an `&` behind them it returns them and true. -/
theorem parseline_render (lead : Nat) {args : List (Arg × Nat)} (hcount : args.length < 127)
    (hgaps : ∀ e ∈ args.dropLast, 1 ≤ e.2) :
    ((render lead args ++ ['\n']).length ≤ 1023 → (∀ e ∈ args.getLast?, e.1.text.head? ≠ some '&') →
      parseline (render lead args ++ ['\n']) = some (args.isEmpty, args.map fun e => e.1.text)) ∧
    ∀ trailing, args ≠ [] → (∀ e ∈ args, 1 ≤ e.2) →
      (render lead (args ++ [(.amp, trailing)]) ++ ['\n']).length ≤ 1023 →
      parseline (render lead (args ++ [(.amp, trailing)]) ++ ['\n']) =
        some (true, args.map fun e => e.1.text) := by
  constructor
  · intro hlen hlast
    rw [parseline_written (written_render lead hgaps) (Nat.lt_succ_of_le (by simpa using hlen)),
      List.map_map]
    rcases List.eq_nil_or_concat args with rfl | ⟨init, ⟨a, gap⟩, rfl⟩
    · rfl
    · have ha : a.text.head? ≠ some '&' := hlast (a, gap) (by simp)
      have hinit : init.length + 1 < 127 := by simpa using hcount
      rw [List.concat_eq_append, List.map_append]
      show outcome (init.map _ ++ [a.text]) = _
      rw [outcome_append (by rw [List.length_map]; unfold MAXARGS; omega), if_neg ha]
      simp
  · intro trailing _ hgaps hlen
    rw [parseline_written (written_render lead (by simpa using hgaps))
      (Nat.lt_succ_of_le (by simpa using hlen)),
      List.map_append, List.map_append, List.map_map]
    show outcome (args.map _ ++ [['&']]) = _
    rw [outcome_append (by rw [List.length_map]; unfold MAXARGS; omega)]
    rfl

/-- Two arguments, the second one empty. -/
theorem parseline_render_run :
    parseline (render 1 [(.amp, 2), (.quoted [] (by decide), 0)] ++ ['\n']) =
      some (false, [['&'], []]) :=
  (parseline_render 1 (by decide) (by decide)).1 (by decide) (by decide)

/-! ## Section 4: Background requests -/

/-- Every argument of the line, the one that an unclosed quote opens included. -/
def Reading.all {line : CStr} (r : Reading line) : List CStr := r.texts ++ r.opened.toList

/-- The last argument of the line is a bare `&`. -/
def Reading.EndsInAmp {line : CStr} (r : Reading line) : Prop :=
  r.opened = none ∧ r.args.getLast? = some .amp

/-- `parseline` sees a request for a background job exactly where the line
    ends in a bare `&`, and takes nothing else off the line. -/
def DetectsBackground (line : CStr) (r : Reading line) : Prop :=
  ∃ bg argv, parseline (line ++ ['\n']) = some (bg, argv) ∧
    (r.EndsInAmp → bg = true ∧ argv = r.all.dropLast) ∧ (¬ r.EndsInAmp → bg = false ∧ argv = r.all)

/-- Background requests. On a line that `fgets` can read at once and that has
    between one and 127 arguments, the request is detected correctly exactly
    when all quotes are closed and the last argument either is a bare `&` or
    does not start with `&`. -/
theorem background_iff {line : CStr} (hlen : line.length + 1 < MAXLINE) (r : Reading line)
    (hone : 1 ≤ r.all.length) (hcount : r.all.length < 128) :
    DetectsBackground line r ↔
      r.opened = none ∧ ∀ a ∈ r.args.getLast?, a = .amp ∨ a.text.head? ≠ some '&' := by
  obtain ⟨args, opened, hwritten⟩ := r
  have hparse := parseline_written hwritten hlen
  cases opened with
  | some text =>
    -- one argument is missing
    refine iff_of_false ?_ (fun h => Option.some_ne_none _ h.1)
    rintro ⟨bg, argv, hargv, _, hother⟩
    have hall : argv = args.map Arg.text ++ [text] :=
      (hother fun hamp => Option.some_ne_none _ hamp.1).2
    have hle := length_le_of_outcome (hparse.symm.trans hargv)
    rw [hall, List.length_append, List.length_singleton] at hle
    omega
  | none =>
    have hne : args ≠ [] := by
      rintro rfl
      exact absurd hone (by simp [Reading.all, Reading.texts])
    obtain ⟨init, a, rfl⟩ : ∃ init a, args = init ++ [a] :=
      ⟨_, _, (List.dropLast_concat_getLast hne).symm⟩
    have hall : Reading.all ⟨init ++ [a], none, hwritten⟩ = init.map Arg.text ++ [a.text] := by
      simp [Reading.all, Reading.texts]
    have hamp : Reading.EndsInAmp ⟨init ++ [a], none, hwritten⟩ ↔ a = .amp := by
      simp [Reading.EndsInAmp]
    have hinit : (init.map Arg.text).length + 1 < MAXARGS := by
      rw [hall, List.length_append] at hcount
      exact hcount
    rw [List.map_append, List.map_singleton, outcome_append hinit] at hparse
    have hright : (∀ a' ∈ (init ++ [a]).getLast?, a' = .amp ∨ a'.text.head? ≠ some '&') ↔
        (a = .amp ∨ a.text.head? ≠ some '&') := by
      simp
    unfold DetectsBackground
    rw [hall, hamp, hparse, List.dropLast_concat, hright, and_iff_right rfl]
    by_cases hstart : a.text.head? = some '&'
    · -- taken for the request, whether it is one or not
      rw [if_pos hstart]
      constructor
      · rintro ⟨bg, argv, hargv, _, hother⟩
        left
        by_contra hne
        exact absurd ((Prod.mk.inj (Option.some.inj hargv)).1.trans (hother hne).1) (by decide)
      · rintro (ha | hnot)
        · exact ⟨true, _, rfl, fun _ => ⟨rfl, rfl⟩, fun hne => absurd ha hne⟩
        · exact absurd hstart hnot
    · rw [if_neg hstart]
      refine iff_of_true ⟨false, _, rfl, ?_, fun _ => ⟨rfl, rfl⟩⟩ (.inr hstart)
      rintro rfl
      exact absurd rfl hstart

/-- A quoted `a` and an `&`. -/
theorem background_detected :
    DetectsBackground (render 0 [(.quoted ['a'] (by decide), 1), (.amp, 0)])
      ⟨_, none, written_render 0 (by decide)⟩ :=
  (background_iff (by decide) _ (by decide) (by decide)).mpr ⟨rfl, by decide⟩

/-- The line `'a' '&'`, whose last argument is lost, and the line `'a' 'b`. -/
theorem background_misread :
    ¬ DetectsBackground (render 0 [(.quoted ['a'] (by decide), 1), (.quoted ['&'] (by decide), 0)])
        ⟨_, none, written_render 0 (by decide)⟩ ∧
      ¬ DetectsBackground
        (spaces 0 ++ ((Arg.quoted ['a'] (by decide)).written ++ (spaces 1 ++ '\'' :: ['b'])))
        ⟨_, some ['b'], .arg 0 _ trivial (.unclosed 1 ['b'] (by decide))⟩ := by
  constructor
  · rintro ⟨bg, argv, hargv, _, hother⟩
    have hparse : some (true, [['a']]) = some (bg, argv) := hargv
    exact absurd ((Prod.mk.inj (Option.some.inj hparse)).1.trans (hother (by rintro ⟨_, ⟨⟩⟩)).1)
      (by decide)
  · rintro ⟨bg, argv, hargv, _, hother⟩
    have hparse : some (false, [['a']]) = some (bg, argv) := hargv
    exact absurd ((Prod.mk.inj (Option.some.inj hparse)).2.trans (hother (by rintro ⟨⟨⟩, _⟩)).2)
      (by decide)

end Shell
