import CsappExperiments.ShellLab.Machine

/-! # Shell Lab: the job that `fg` and `bg` name

    `do_bgfg` looks at the first character of its argument and leaves the
    rest to `atoi`, which stops at the first character that is no digit and
    has no say about numbers that are no `int`.

    `acts_on_named_iff` says for which arguments the command acts on the job
    that is named and on no other. The job list is any that has distinct ids
    (`Ids`).
-/

open CLib

namespace Shell

/-! ## Section 1: `do_bgfg` -/

/-- What `do_bgfg` does, before it waits for the job or prints it. -/
structure BgfgResult where
  /-- The error message that is printed. -/
  message : Option CStr
  /-- The process group that is sent SIGCONT. -/
  continued : Option Pid
  table : JobTable
  deriving DecidableEq

/-- The state that the command stores. -/
def commandState (argv0 : CStr) : JobState := if argv0 = ['f', 'g'] then .FG else .BG

/-- `do_bgfg`. -/
def doBgfg (t : JobTable) (argv0 : CStr) (argv1 : Option CStr) : BgfgResult :=
  match bgfgJob t argv0 argv1 with
  | .error message => ⟨some message, none, t⟩
  | .ok jobPtr => ⟨none, some (t.jobs jobPtr).pid, t.setState jobPtr (commandState argv0)⟩

/-- Without a signal in between, the shell does this in three steps, or in
    one if there is an error. -/
theorem doBgfg_mainStep {s : State} {argv0 : CStr} {argv1 : Option CStr}
    (hmain : s.main = .bgfgLookup argv0 argv1) :
    match (doBgfg s.table argv0 argv1).continued with
    | none =>
      (doBgfg s.table argv0 argv1).table = s.table ∧ mainStep s = some { s with main := .top }
    | some pid => ∃ pc, ((mainStep s).bind mainStep).bind mainStep =
        some { s with
          table := (doBgfg s.table argv0 argv1).table, main := pc,
          procs := sigcont s.procs pid } := by
  unfold doBgfg
  cases hjob : bgfgJob s.table argv0 argv1 with
  | error message => exact ⟨rfl, by rw [mainStep, hmain]; simp only [hjob]⟩
  | ok jobPtr =>
    have hlookup : mainStep s = some { s with main := .bgfgKill (argv0 = ['f', 'g']) jobPtr } := by
      rw [mainStep, hmain]
      simp only [hjob]
    refine ⟨if argv0 = ['f', 'g'] then .bgfgWait jobPtr else .bgfgPrint jobPtr, ?_⟩
    rw [hlookup]
    simp [mainStep, commandState]

/-! ## Section 2: Names -/

/-- What the argument says: which id it means, and the text of its number. -/
def reference (arg : CStr) : (Job → Int) × CStr :=
  match arg with
  | '%' :: number => (Job.jid, number)
  | number => (Job.pid, number)

/-- The argument is the pid of this live job, or `%` and its jid, as a
    decimal numeral. -/
def Names (t : JobTable) (argv1 : Option CStr) (i : Slot) : Prop :=
  ∃ arg, argv1 = some arg ∧ (t.jobs i).pid ≠ 0 ∧ IsNumeral (reference arg).2 ∧
    (reference arg).1 (t.jobs i) = decimal (reference arg).2

/-- The command continues the job that is named, and stores the state of
    that job only. If none is named it prints an error and does nothing else. -/
def ActsOnNamed (t : JobTable) (argv0 : CStr) (argv1 : Option CStr) : Prop :=
  (∃ i, Names t argv1 i ∧
    doBgfg t argv0 argv1 = ⟨none, some (t.jobs i).pid, t.setState i (commandState argv0)⟩) ∨
  (∀ i, ¬ Names t argv1 i) ∧ ∃ message, doBgfg t argv0 argv1 = ⟨some message, none, t⟩

/-- A job list with distinct ids. Entries that are not in use are clear, the
    others have ids that are positive `int`s. -/
structure Ids (t : JobTable) : Prop where
  clear : ∀ i, (t.jobs i).pid = 0 → (t.jobs i).jid = 0
  pid : ∀ i, (t.jobs i).pid ≠ 0 → 1 ≤ (t.jobs i).pid ∧ (t.jobs i).pid < 2 ^ 31
  jid : ∀ i, (t.jobs i).pid ≠ 0 → 1 ≤ (t.jobs i).jid ∧ (t.jobs i).jid < 2 ^ 31
  distinctPid : ∀ i k, (t.jobs i).pid ≠ 0 → (t.jobs i).pid = (t.jobs k).pid → i = k
  distinctJid : ∀ i k, (t.jobs i).pid ≠ 0 → (t.jobs i).jid = (t.jobs k).jid → i = k

/-- The argument is missing, or starts with neither a digit nor `%`, or is
    the numeral of an `int` (behind its `%`, if it has one), or no live job has
    the number that `atoi` makes of it. -/
def ReadCorrectly (t : JobTable) (argv1 : Option CStr) : Prop :=
  ∀ arg, argv1 = some arg →
    (∀ c ∈ arg.head?, isdigit c = false ∧ c ≠ '%') ∨
    (IsNumeral (reference arg).2 ∧ decimal (reference arg).2 < 2 ^ 31) ∨
    ∀ i, (t.jobs i).pid ≠ 0 → (reference arg).1 (t.jobs i) ≠ atoi (reference arg).2

/-! ## Section 3: What is looked up -/

theorem reference_bare {c : Char} (hc : c ≠ '%') (s : CStr) :
    reference (c :: s) = (Job.pid, c :: s) := by
  unfold reference
  split
  · next heq => exact absurd (List.cons.inj heq).1 hc
  · rfl

theorem Ids.range {t : JobTable} (ht : Ids t) (arg : CStr) {i : Slot} (hi : (t.jobs i).pid ≠ 0) :
    1 ≤ (reference arg).1 (t.jobs i) ∧ (reference arg).1 (t.jobs i) < 2 ^ 31 := by
  unfold reference
  split
  · exact ht.jid i hi
  · exact ht.pid i hi

theorem not_isdigit_iff (c : Char) : isdigit c = false ↔ c < '0' ∨ c > '9' := by
  unfold isdigit
  rw [Bool.and_eq_false_iff, decide_eq_false_iff_not, decide_eq_false_iff_not, Char.not_le,
    Char.not_le]

/-- An argument that starts with neither a digit nor `%` is refused, and
    names no job. -/
theorem bgfgJob_refused (t : JobTable) (argv0 : CStr) {arg : CStr}
    (hfirst : ∀ c ∈ arg.head?, isdigit c = false ∧ c ≠ '%') :
    (∃ message, bgfgJob t argv0 (some arg) = .error message) ∧ ∀ i, ¬ Names t (some arg) i := by
  cases arg with
  | nil =>
    refine ⟨⟨_, rfl⟩, ?_⟩
    rintro i ⟨_, harg, _, hnumeral, _⟩
    obtain rfl := Option.some.inj harg
    exact hnumeral.1 rfl
  | cons c arg =>
    obtain ⟨hdigit, hpercent⟩ := hfirst c rfl
    constructor
    · refine ⟨argv0 ++ ": argument must be a PID or %jobid\n".toList, ?_⟩
      exact if_pos ⟨(not_isdigit_iff c).mp hdigit, hpercent⟩
    · rintro i ⟨_, harg, _, hnumeral, _⟩
      obtain rfl := Option.some.inj harg
      rw [reference_bare hpercent] at hnumeral
      rw [List.all_eq_true.mp hnumeral.2 c List.mem_cons_self] at hdigit
      cases hdigit

theorem ne_percent_of_isdigit {c : Char} (hc : isdigit c = true) : c ≠ '%' := by
  intro heq
  rw [heq] at hc
  exact absurd hc (by decide)

theorem bgfgJob_percent (t : JobTable) (argv0 s : CStr) :
    bgfgJob t argv0 (some ('%' :: s)) =
      match getjobjid t (atoi s) with
      | none => .error ('%' :: s ++ ": No such job\n".toList)
      | some jobPtr => .ok jobPtr := rfl

theorem bgfgJob_digit (t : JobTable) (argv0 : CStr) {c : Char} (hc : isdigit c = true) (s : CStr) :
    bgfgJob t argv0 (some (c :: s)) =
      match getjobpid t (atoi (c :: s)) with
      | none => .error ('(' :: c :: s ++ "): No such process\n".toList)
      | some jobPtr => .ok jobPtr := by
  have hchecked : ¬ ((c < '0' ∨ c > '9') ∧ c ≠ '%') := by
    rw [← not_isdigit_iff, hc]
    exact fun h => absurd h.1 (by decide)
  unfold bgfgJob
  exact (if_neg hchecked).trans (if_neg (ne_percent_of_isdigit hc))

/-- Any other argument leads to the live job that has the number that `atoi`
    makes of it, or to an error if there is none. -/
theorem bgfgJob_accepted {t : JobTable} (ht : Ids t) (argv0 : CStr) {c : Char}
    (hc : isdigit c = true ∨ c = '%') (s : CStr) :
    (∃ i, bgfgJob t argv0 (some (c :: s)) = .ok i ∧ (t.jobs i).pid ≠ 0 ∧
      (reference (c :: s)).1 (t.jobs i) = atoi (reference (c :: s)).2) ∨
    (∃ message, bgfgJob t argv0 (some (c :: s)) = .error message) ∧
      ∀ i, (t.jobs i).pid ≠ 0 →
        (reference (c :: s)).1 (t.jobs i) ≠ atoi (reference (c :: s)).2 := by
  -- a digit: the number is a pid; a `%`: it is a job ID
  cases hc with
  | inl hdigit =>
    rw [bgfgJob_digit t argv0 hdigit, reference_bare (ne_percent_of_isdigit hdigit)]
    cases hfind : getjobpid t (atoi (c :: s)) with
    | some i =>
      obtain ⟨hpos, hpid⟩ := getjobpid_some hfind
      refine .inl ⟨i, rfl, ?_, hpid⟩
      intro hfree
      rw [← hpid, hfree] at hpos
      exact absurd hpos (by decide)
    | none =>
      refine .inr ⟨⟨_, rfl⟩, ?_⟩
      intro i hi hpid
      have hpid : (t.jobs i).pid = atoi (c :: s) := hpid
      exact getjobpid_ne_none (hpid ▸ (ht.pid i hi).1) hpid hfind
  | inr hpercent =>
    subst hpercent
    rw [bgfgJob_percent]
    cases hfind : getjobjid t (atoi s) with
    | some i =>
      obtain ⟨hpos, hjid⟩ := getjobjid_some hfind
      refine .inl ⟨i, rfl, ?_, hjid⟩
      intro hfree
      rw [ht.clear i hfree] at hjid
      omega
    | none =>
      refine .inr ⟨⟨_, rfl⟩, ?_⟩
      intro i hi hjid
      have hjid : (t.jobs i).jid = atoi s := hjid
      exact getjobjid_ne_none (hjid ▸ (ht.jid i hi).1) hjid hfind

/-! ## Section 4: Acting on the named job -/

theorem doBgfg_ok {t : JobTable} {argv0 : CStr} {argv1 : Option CStr} {i : Slot}
    (h : bgfgJob t argv0 argv1 = .ok i) :
    doBgfg t argv0 argv1 = ⟨none, some (t.jobs i).pid, t.setState i (commandState argv0)⟩ := by
  unfold doBgfg
  rw [h]

theorem doBgfg_error {t : JobTable} {argv0 : CStr} {argv1 : Option CStr}
    (h : ∃ message, bgfgJob t argv0 argv1 = .error message) :
    ∃ message, doBgfg t argv0 argv1 = ⟨some message, none, t⟩ := by
  obtain ⟨message, h⟩ := h
  refine ⟨message, ?_⟩
  unfold doBgfg
  rw [h]

/-- Where an error is reported, no job may have been named. -/
theorem acts_iff_of_error {t : JobTable} {argv0 : CStr} {argv1 : Option CStr}
    (h : ∃ message, bgfgJob t argv0 argv1 = .error message) :
    ActsOnNamed t argv0 argv1 ↔ ∀ i, ¬ Names t argv1 i := by
  obtain ⟨message, hres⟩ := doBgfg_error h
  constructor
  · rintro (⟨i, _, hact⟩ | ⟨hno, _⟩)
    · rw [hres] at hact
      exact absurd (congrArg BgfgResult.message hact) (Option.some_ne_none _)
    · exact hno
  · intro hno
    exact .inr ⟨hno, message, hres⟩

/-- Where a job is found, it must be the one that was named. -/
theorem acts_iff_of_ok {t : JobTable} (ht : Ids t) {argv0 : CStr} {argv1 : Option CStr} {i : Slot}
    (hi : (t.jobs i).pid ≠ 0) (h : bgfgJob t argv0 argv1 = .ok i) :
    ActsOnNamed t argv0 argv1 ↔ Names t argv1 i := by
  have hres := doBgfg_ok h
  constructor
  · rintro (⟨k, hk, hact⟩ | ⟨_, message, herror⟩)
    · rw [hres] at hact
      have hpid : (t.jobs i).pid = (t.jobs k).pid :=
        Option.some.inj (congrArg BgfgResult.continued hact)
      rwa [ht.distinctPid i k hi hpid]
    · rw [hres] at herror
      exact absurd (congrArg BgfgResult.message herror).symm (Option.some_ne_none _)
  · intro hnamed
    exact .inl ⟨i, hnamed, hres⟩

/-- A job can only be named by the numeral of an `int`, which `atoi` reads. -/
theorem Names.atoi {t : JobTable} (ht : Ids t) {arg : CStr} {i : Slot} (h : Names t (some arg) i) :
    (IsNumeral (reference arg).2 ∧ decimal (reference arg).2 < 2 ^ 31) ∧ (t.jobs i).pid ≠ 0 ∧
      (reference arg).1 (t.jobs i) = CLib.atoi (reference arg).2 := by
  obtain ⟨_, harg, hi, hnumeral, hval⟩ := h
  obtain rfl := Option.some.inj harg
  have hrange := ht.range arg hi
  have hlt : decimal (reference arg).2 < 2 ^ 31 := by omega
  exact ⟨⟨hnumeral, hlt⟩, hi, by rw [atoi_of_numeral hnumeral hlt, hval]⟩

/-- `fg` and `bg` act on the job that is named, and on no other, exactly for
    the arguments that are read correctly. -/
theorem acts_on_named_iff {t : JobTable} (ht : Ids t) (argv0 : CStr) (argv1 : Option CStr) :
    ActsOnNamed t argv0 argv1 ↔ ReadCorrectly t argv1 := by
  cases argv1 with
  | none =>
    rw [acts_iff_of_error ⟨_, rfl⟩]
    exact iff_of_true (fun i h => nomatch h.choose_spec.1) (fun arg h => nomatch h)
  | some arg =>
    unfold ReadCorrectly
    simp only [Option.some.injEq, forall_eq']
    by_cases hfirst : ∀ c ∈ arg.head?, isdigit c = false ∧ c ≠ '%'
    · obtain ⟨herror, hno⟩ := bgfgJob_refused t argv0 hfirst
      rw [acts_iff_of_error herror]
      exact iff_of_true hno (.inl hfirst)
    · rw [or_iff_right hfirst]
      obtain ⟨c, s, rfl, hc⟩ : ∃ c s, arg = c :: s ∧ (isdigit c = true ∨ c = '%') := by
        push Not at hfirst
        obtain ⟨c, hhead, hc⟩ := hfirst
        obtain ⟨s, rfl⟩ := List.head?_eq_some_iff.mp hhead
        exact ⟨c, s, rfl, or_iff_not_imp_left.mpr fun hdigit => hc (Bool.eq_false_iff.mpr hdigit)⟩
      rcases bgfgJob_accepted ht argv0 hc s with ⟨i, hok, hi, hval⟩ | ⟨herror, hnone⟩
      · rw [acts_iff_of_ok ht hi hok]
        constructor
        · -- the job that was found has the number that `atoi` made of the argument
          intro hnamed
          exact .inl (hnamed.atoi ht).1
        · rintro (⟨hnumeral, hlt⟩ | hnone)
          · exact ⟨_, rfl, hi, hnumeral, by rw [hval, atoi_of_numeral hnumeral hlt]⟩
          · exact absurd hval (hnone i hi)
      · rw [acts_iff_of_error herror]
        refine iff_of_true ?_ (.inr hnone)
        intro i hnamed
        obtain ⟨_, hi, hval⟩ := hnamed.atoi ht
        exact hnone i hi hval

/-- The list with one stopped job, of pid 2 and jid 1. -/
def oneStopped : JobTable := initjobs.setJob 0 ⟨2, 1, .ST, []⟩

theorem oneStopped_live {i : Slot} (hi : (oneStopped.jobs i).pid ≠ 0) : i = 0 := by
  by_contra hne
  exact hi (congrArg Job.pid (setJob_ne initjobs _ hne))

theorem oneStopped_ids : Ids oneStopped where
  clear := by decide
  pid i hi := by rw [oneStopped_live hi]; decide
  jid i hi := by rw [oneStopped_live hi]; decide
  distinctPid := by decide
  distinctJid := by decide

/-- `bg %1`. -/
theorem acts_on_named_bg : ActsOnNamed oneStopped ['b', 'g'] (some ['%', '1']) :=
  (acts_on_named_iff oneStopped_ids _ _).mpr (by
    rintro _ ⟨rfl⟩
    have hvalue : decimal ['1'] = 1 := rfl
    exact .inr (.inl ⟨⟨List.cons_ne_nil _ _, rfl⟩, hvalue.trans_lt (by omega)⟩))

/-- `fg 2x` and `fg 4294967298` continue the job with pid 2. -/
theorem acts_on_unnamed :
    ¬ ActsOnNamed oneStopped ['f', 'g'] (some ['2', 'x']) ∧
      ¬ ActsOnNamed oneStopped ['f', 'g'] (some "4294967298".toList) := by
  constructor
  · rw [acts_iff_of_ok oneStopped_ids (i := 0) (by decide) (by decide)]
    rintro ⟨_, ⟨rfl⟩, _, hnumeral, _⟩
    exact absurd hnumeral.2 Bool.false_ne_true
  · rw [acts_iff_of_ok oneStopped_ids (i := 0) (by decide) (by decide)]
    rintro ⟨_, ⟨rfl⟩, _, _, hval⟩
    exact absurd hval (by decide)

end Shell
