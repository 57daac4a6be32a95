import CsappExperiments.ShellLab.LifeCycle

/-! # Shell Lab: who gets a signal from the terminal

    A handler of SIGINT or SIGTSTP reads the pid of the foreground job, and
    signals its group in a later step. `sigchld_handler` may interrupt it in
    between, so that the job has stopped or is gone by then. No other job can
    have come to the foreground, since the main line does not go on. So the
    signal may come too late, but it is never for a background job, for a child
    that is not in the table, or for the shell (`terminal_signal_target`).
-/

namespace Shell

/-! ## Section 1: The job that is signalled -/

/-- The pid of the foreground job, or of one that was in the foreground when
    its pid was read and has stopped or has been reaped since. -/
structure Target (t : JobTable) (procs : ProcTable) (pid : Pid) : Prop where
  lt : 1 < pid
  named : ∀ i, (t.jobs i).pid = pid → (t.jobs i).state = .FG ∨ (t.jobs i).state = .ST
  alone : ∀ i, (t.jobs i).state = .FG → (t.jobs i).pid = pid
  listed : pid ∈ procs → ∃ i, (t.jobs i).pid = pid

namespace Target

variable {v : View} {a : Act} {t : JobTable} {procs procs' : ProcTable} {pid : Pid}

theorem mono (h : Target t procs pid) (hprocs : pid ∈ procs' → pid ∈ procs) : Target t procs' pid :=
  { h with listed := fun hmem => h.listed (hprocs hmem) }

/-- `fgpid` has found the foreground job. -/
theorem read (hv : Consistent v) (hne : fgpid v.table ≠ 0) :
    Target v.table v.procs (fgpid v.table) := by
  obtain ⟨k, hk, hpid⟩ := fgpid_ne_zero hne
  have hk0 : (v.table.jobs k).pid ≠ 0 := hpid ▸ hne
  exact
    { lt := hpid ▸ (hv.registry.pids k).resolve_left hk0
      named := by
        intro i hi
        obtain rfl := hv.registry.distinct k i hk0 (hpid.trans hi.symm)
        exact .inl hk
      alone := by
        intro i hi
        rw [hv.foreground.unique i k hi hk]
        exact hpid
      listed := fun _ => ⟨k, hpid⟩ }

/-- What `sigchld_handler` does to the table takes jobs out of the foreground. -/
theorem slots (h : Target v.table v.procs pid) (hadd : ∀ bg p, a ≠ .addjob bg p)
    (hstore : ∀ fg i, a ≠ .store fg i) (hslots : ∀ i, SlotStep v a i (t.jobs i)) :
    Target t v.procs pid where
  lt := h.lt
  named := by
    intro i hi
    have hslot := hslots i
    generalize t.jobs i = j at hi hslot
    cases hslot with
    | same => exact h.named i hi
    | register bg _ p _ ha => exact absurd ha (hadd bg p)
    | delete =>
      -- a cleared entry has the pid 0
      have hzero : 0 = pid := hi
      exact absurd (hzero ▸ h.lt) (by decide)
    | stop => exact .inr rfl
    | store fg ha => exact absurd ha (hstore fg i)
  alone := by
    intro i hi
    have hslot := hslots i
    generalize t.jobs i = j at hi hslot
    cases hslot with
    | same => exact h.alone i hi
    | register bg _ p _ ha => exact absurd ha (hadd bg p)
    | delete | stop => cases hi
    | store fg ha => exact absurd ha (hstore fg i)
  listed := by
    intro hmem
    obtain ⟨i, hi⟩ := h.listed hmem
    refine ⟨i, ?_⟩
    have hslot := hslots i
    generalize t.jobs i = j at hslot
    cases hslot with
    | same | stop => exact hi
    | register bg _ p _ ha => exact absurd ha (hadd bg p)
    | delete how _ _ hgone => exact absurd (hi ▸ hmem) hgone
    | store fg ha => exact absurd ha (hstore fg i)

end Target

/-! ## Section 2: Every pid that is held -/

def HeldTargets (s : State) : Prop := ∀ pid ∈ heldOf s.frames, pid ≠ 0 → Target s.table s.procs pid

theorem HeldTargets.of_nil {s : State} (h : s.frames = []) : HeldTargets s := by
  intro pid hpid
  rw [h] at hpid
  exact absurd hpid List.not_mem_nil

theorem HeldTargets.of_sub {s s' : State} (h : HeldTargets s)
    (hheld : ∀ pid ∈ heldOf s'.frames, pid ∈ heldOf s.frames) (htable : s'.table = s.table)
    (hprocs : ∀ pid ∈ s'.procs, pid ∈ s.procs) : HeldTargets s' := by
  intro pid hpid hne
  rw [htable]
  exact (h pid (hheld pid hpid) hne).mono (hprocs pid)

theorem frameStep_held {s s' : State} {f : Frame} {fs : List Frame} (hr : shell.Reachable s)
    (h : HeldTargets s) (hf : s.frames = f :: fs) (hstep : step s .run = some s')
    (hframe : frameStep s f fs = some s') : HeldTargets s' := by
  obtain ⟨pc, saved⟩ := f
  -- what the interrupted handlers hold stays the same
  have htail : ∀ pid ∈ heldOf fs, pid ∈ heldOf s.frames := by
    intro pid hpid
    rw [hf, heldOf_cons]
    exact List.mem_append_right _ hpid
  cases pc with
  | termReturn =>
    obtain rfl := Option.some.inj hframe
    exact h.of_sub htail rfl fun _ hp => hp
  | termRead sig =>
    obtain rfl := Option.some.inj hframe
    intro pid hpid hne
    rcases List.mem_cons.mp hpid with rfl | hpid
    · exact Target.read (reachable_consistent s hr) hne
    · exact h pid (htail pid hpid) hne
  | termKill sig pid =>
    simp only [frameStep] at hframe
    split at hframe <;> obtain rfl := Option.some.inj hframe
    · exact h
    · exact h.of_sub htail rfl fun _ hp => hp
  | quit =>
    obtain rfl := Option.some.inj hframe
    exact h
  | chld pc =>
    -- a handler neither adds a job nor stores for `do_bgfg`
    have hadd : ∀ bg p, s.act .run ≠ .addjob bg p := by
      intro bg p
      simp only [State.act, hf]
      split <;> simp
    have hstore : ∀ fg i, s.act .run ≠ .store fg i := by
      intro fg i
      simp only [State.act, hf]
      split <;> simp
    have hslots := fun i => step_slot hr hstep i
    obtain ⟨rfl, rfl⟩ | ⟨pc', s₁, hchld, rfl⟩ := frameStep_chld hframe
    · exact h.of_sub htail rfl fun _ hp => hp
    · have hprocs : s₁.procs = s.procs := by
        cases hchld <;> rfl
      intro pid hpid hne
      show Target s₁.table s₁.procs pid
      rw [hprocs]
      exact (h pid (htail pid hpid) hne).slots hadd hstore hslots

theorem held_step {s s' : State} {l : Label} (hr : shell.Reachable s) (h : HeldTargets s)
    (hs : step s l = some s') :
    HeldTargets s' := by
  obtain ⟨_, hstep⟩ := step_cases hs
  cases hstep with
  | child pid ev c c' => exact h.of_sub (fun _ hp => hp) rfl fun _ hp => mem_setProc.mp hp
  | join | leave | raise | readEnd | forkFail => exact h.of_sub (fun _ hp => hp) rfl fun _ hp => hp
  | fork pid bg cmdline prevOne hf => exact .of_nil hf
  | deliver sig =>
    obtain ⟨saved, blocked, heq⟩ := interrupt_eq (reachable_mask hr) sig
    rw [heq]
    refine h.of_sub (fun pid hpid => ?_) rfl fun _ hp => hp
    have hstart : (Frame.mk (handler sig) saved).held? = none := by
      cases sig <;> rfl
    rw [heldOf_cons, hstart] at hpid
    exact hpid
  | readLine cmdline _ hf _ hline =>
    obtain rfl | rfl | ⟨bg, rfl⟩ | ⟨argv0, argv1, rfl⟩ := evalLine_cases hline <;> exact .of_nil hf
  | waitpid pid how c saved fs hf =>
    refine h.of_sub (fun p hp => ?_) rfl fun _ hp => mem_of_mem_reap hp
    rw [hf]
    exact hp
  | main _ hf hmain =>
    have hbase := (reachable_mask hr).base
    rw [hf] at hbase
    exact .of_nil ((mainStep_mask hbase hmain).1.trans hf)
  | frame f fs _ hf hframe => exact frameStep_held hr h hf hs hframe

theorem reachable_held {s : State} (h : shell.Reachable s) : HeldTargets s :=
  LTS.System.Reachable.invariant (P := HeldTargets) (.of_nil rfl)
    (fun _ _ _ hr hinv hs => held_step hr hinv hs) h

/-- The handler has read the pid before. -/
theorem mem_heldOf_kill {s : State} {l : Label} {sig : Sig} {pid : Pid}
    (h : s.act l = .kill sig pid) :
    pid ∈ heldOf s.frames := by
  obtain ⟨rfl, f, fs, hf⟩ := run_of_act (by rw [h]; rfl)
  simp only [State.act, hf] at h
  split at h <;> cases h
  next hpc =>
    rw [hf, heldOf_cons, Frame.held?, hpc]
    exact List.mem_append_left _ (List.mem_singleton.mpr rfl)

/-- In every run, SIGINT and SIGTSTP go to the group of the foreground job. If
    that has stopped or has been reaped while the handler was interrupted, no other
    job has taken its place; it is never a job in the background. -/
theorem terminal_signal_target {s : State} {l : Label} {sig : Sig} {pid : Pid}
    (h : shell.Reachable s) (hact : s.act l = .kill sig pid) (hguard : termGuard sig pid = true) :
    Target s.table s.procs pid := by
  have hne : pid ≠ 0 := by
    rintro rfl
    cases sig <;> cases hguard
  exact reachable_held h pid (mem_heldOf_kill hact) hne

/-- The job stops before the signal is sent. -/
theorem terminal_signal_target_stopped :
    ∃ s, shell.Reachable s ∧ s.act .run = .kill .SIGINT 2 ∧ (s.table.jobs 0).state = .ST ∧
      Target s.table s.procs 2 := by
  have hrun : (shell.run initial
      (launchFg 2 ++ [.child 2 .setpgid, .run, .run, .raise .SIGINT, .deliver .SIGINT, .run,
      .child 2 .stop] ++ handle 2 7)).any
        (fun s => decide (s.act .run = .kill .SIGINT 2 ∧ (s.table.jobs 0).state = .ST)) = true := by
    decide +kernel
  obtain ⟨s, hs, hp⟩ := LTS.System.Reachable.init.exists_run hrun
  obtain ⟨hact, hstate⟩ := of_decide_eq_true hp
  exact ⟨s, hs, hact, hstate, terminal_signal_target hs hact rfl⟩

end Shell
