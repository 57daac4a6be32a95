import CsappExperiments.ShellLab.Foreground

/-! # Shell Lab: signals from the terminal

    `sigint_handler` and `sigtstp_handler` read the pid of the foreground
    job and send the signal to the process group with that id. When there is
    no such group `kill` fails, and the handler exits the shell through
    `unix_error`. The shell is taken to be allowed to signal its jobs, so that
    `kill` does not fail for another reason.

    Three windows make that possible:
    * the child has not run `setpgid` yet, and nobody else does it;
    * the child has been reaped, but not deleted from the table yet, when
      the handler reads the pid (it interrupts `sigchld_handler`);
    * the group disappears between the reading and the `kill`.
    In the runs that avoid them the signal reaches a group
    (`signal_reaches_group`).
-/

namespace Shell

/-! ## Section 1: The invariant -/

/-- The condition on the steps of a run. -/
def TermSafe (v : View) : Act → Prop
  -- the job has run setpgid when its group is signalled
  | .kill _ pid => ∀ c ∈ v.procs.lookup pid, c.grouped = true
  -- the job whose pid is read has not been reaped, or its group is not empty
  | .readFg => dyingOf v.chld = some (fgpid v.table) → fgpid v.table ∈ v.helpers
  -- the group does not disappear while a handler holds its id
  | .reap how pid => how.terminal = true → pid ∈ v.held → pid ∈ v.helpers
  | .leave pid => pid ∈ v.held → pid ∈ v.helpers → pid ∈ v.procs
  | _ => True

instance (v : View) : ∀ a, Decidable (TermSafe v a)
  | .kill _ pid => inferInstanceAs (Decidable (∀ c ∈ v.procs.lookup pid, c.grouped = true))
  | .readFg => inferInstanceAs
      (Decidable (dyingOf v.chld = some (fgpid v.table) → fgpid v.table ∈ v.helpers))
  | .reap how pid => inferInstanceAs
      (Decidable (how.terminal = true → pid ∈ v.held → pid ∈ v.helpers))
  | .leave pid => inferInstanceAs (Decidable (pid ∈ v.held → pid ∈ v.helpers → pid ∈ v.procs))
  | .update _ _ | .store _ _ | .addjob _ _ | .other => inferInstanceAs (Decidable True)

/-- The groups whose ids are held have a member, if only one that has not
    joined its group yet. -/
def HeldAlive (v : View) : Prop := ∀ pid ∈ v.held, pid ≠ 0 → pid ∈ v.procs ∨ pid ∈ v.helpers

theorem HeldAlive.of_sub {v v' : View} (h : HeldAlive v) (hheld : ∀ pid ∈ v'.held, pid ∈ v.held)
    (hprocs : ∀ pid ∈ v.procs, pid ∈ v'.procs) (hhelpers : v.helpers ⊆ v'.helpers) :
    HeldAlive v' := by
  intro pid hpid hne
  rcases h pid (hheld pid hpid) hne with hmem | hmem
  · exact .inl (hprocs pid hmem)
  · exact .inr (hhelpers hmem)

theorem heldAlive_move {v v' : View} {a : Act} (hreg : Registry v.table v.procs v.main v.chld)
    (h : HeldAlive v) (hok : TermSafe v a) (hm : Move v a v') : HeldAlive v' := by
  cases hm with
  | child pid ev c c' hc hev =>
    exact h.of_sub (fun _ hp => hp) (fun _ hp => mem_setProc.mpr hp) fun _ hp => hp
  | join pid => exact h.of_sub (fun _ hp => hp) (fun _ hp => hp) (Finset.subset_insert _ _)
  | leave pid =>
    intro p hp hne
    rcases h p hp hne with hmem | hmem
    · exact .inl hmem
    · by_cases hpp : p = pid
      · subst hpp
        -- when the last helper leaves, the leader is still there
        exact .inl (hok hp hmem)
      · exact .inr (Finset.mem_erase.mpr ⟨hpp, hmem⟩)
  | reap how pid c hwait hc hrep =>
    intro p hp hne
    by_cases hpp : p = pid
    · subst hpp
      cases hterm : how.terminal with
      | true => exact .inr (hok hterm hp)
      | false =>
        left
        obtain rfl := Report.eq_stopped hterm
        rw [← AList.lookup_isSome, lookup_reap_stopped, hc]
        rfl
    · rcases h p hp hne with hmem | hmem
      · exact .inl (mem_reap_ne hpp hmem)
      · exact .inr hmem
  | readFg =>
    intro p hp hne
    rcases List.mem_cons.mp hp with rfl | hp
    · -- the entry in state FG belongs to a child, unless that is being deleted
      obtain ⟨i, _, hi⟩ := fgpid_ne_zero hne
      rcases hreg.owned i (by rw [hi]; exact hne) with hmem | hdying
      · exact .inl (hi ▸ hmem)
      · exact .inr (hok (hi ▸ hdying))
    · exact h p hp hne
  | drop _ pid held hheld =>
    refine h.of_sub ?_ (fun _ hp => hp) fun _ hp => hp
    intro p hp
    rw [hheld]
    exact List.mem_cons_of_mem _ hp
  | fork bg cmdline prev pid hnone hmain hpid hfresh =>
    exact h.of_sub (fun _ hp => hp) (fun _ hp => (AList.mem_insert v.procs).mpr (.inr hp))
      fun _ hp => hp
  | cont fg i hnone hmain =>
    exact h.of_sub (fun _ hp => hp) (fun _ hp => mem_sigcont.mpr hp) fun _ hp => hp
  | _ => exact h

theorem reachable_heldAlive {s : State}
    (h : shell.ReachableUnder (fun s l => TermSafe s.view (s.act l)) s) : HeldAlive s.view :=
  shell_abstraction.invariant_given Consistent reachable_consistent HeldAlive TermSafe
    (fun _ hp => absurd hp List.not_mem_nil)
    (fun _ _ _ hv hinv hok hm => heldAlive_move hv.registry hinv hok hm) h

/-! ## Section 2: The signal reaches a group -/

/-- The action `kill` is the one of a handler that holds the pid. -/
theorem kill_of_act {s : State} {l : Label} {sig : Sig} {pid : Pid} (h : s.act l = .kill sig pid) :
    l = .run ∧ ∃ f fs, s.frames = f :: fs ∧ f.pc = .termKill sig pid := by
  obtain ⟨rfl, f, fs, hf⟩ := run_of_act (by rw [h]; rfl)
  simp only [State.act, hf] at h
  split at h <;> cases h
  next hpc => exact ⟨rfl, f, fs, hf, hpc⟩

/-- When `sigint_handler` or `sigtstp_handler` calls `kill`, the process
    group exists, and the shell goes on. -/
theorem signal_reaches_group {s : State} {l : Label} {sig : Sig} {pid : Pid}
    (h : shell.ReachableUnder (fun s l => TermSafe s.view (s.act l)) s)
    (hok : TermSafe s.view (s.act l)) (hact : s.act l = .kill sig pid)
    (hguard : termGuard sig pid = true) :
    groupExists s pid = true ∧ ∀ s', shell.step s l = some s' → s'.halted = none := by
  obtain ⟨rfl, f, fs, hf, hpc⟩ := kill_of_act hact
  have hne : pid ≠ 0 := by
    rintro rfl
    cases sig <;> cases hguard
  have hheld : pid ∈ s.view.held := by
    rw [State.view, hf, heldOf_cons, Frame.held?, hpc]
    exact List.mem_append_left _ (List.mem_singleton.mpr rfl)
  rw [hact] at hok
  have hexists : groupExists s pid = true := by
    -- the group has its leader, or another member
    rcases reachable_heldAlive h pid hheld hne with hmem | hmem
    · obtain ⟨c, hc⟩ := Option.isSome_iff_exists.mp (AList.lookup_isSome.mpr hmem)
      have hgrouped : c.grouped = true := hok c hc
      have hc' : s.procs.lookup pid = some c := hc
      simp [groupExists, hc', hgrouped]
    · have hmem' : pid ∈ s.helpers := hmem
      simp [groupExists, hmem']
  refine ⟨hexists, ?_⟩
  intro s' hstep
  change step s .run = some s' at hstep
  unfold step at hstep
  split at hstep
  · cases hstep
  · next hnot =>
    simp only [hf, frameStep, hpc, hguard, hexists] at hstep
    obtain rfl := Option.some.inj hstep
    simpa using hnot

/-- The terminal interrupts a foreground job that has its own group. -/
theorem signal_reaches_group_run :
    ∃ s, shell.Reachable s ∧ s.act .run = .kill .SIGINT 2 ∧ groupExists s 2 = true := by
  have hrun : (shell.runUnder (fun s l => TermSafe s.view (s.act l)) initial
      (launchFg 2 ++ [.child 2 .setpgid, .run, .run, .raise .SIGINT, .deliver .SIGINT, .run])).any
        (fun s => decide (s.act .run = .kill .SIGINT 2 ∧ TermSafe s.view (s.act .run))) = true := by
    decide +kernel
  obtain ⟨s, hs, hp⟩ := LTS.System.ReachableUnder.init.exists_run hrun
  obtain ⟨hact, hok⟩ := of_decide_eq_true hp
  exact ⟨s, hs.reachable, hact, (signal_reaches_group hs hok hact rfl).1⟩

/-- SIGINT for a foreground job that has not run `setpgid` yet. -/
def interruptsEarly : List Label :=
  launchFg 2 ++ [.run, .run, .raise .SIGINT, .deliver .SIGINT, .run]

/-- There is no process group for the signal, and the shell exits. -/
theorem interrupt_exits_shell :
    ∃ s, shell.run initial interruptsEarly = some s ∧ s.act .run = .kill .SIGINT 2 ∧
      termGuard .SIGINT 2 = true ∧ groupExists s 2 = false ∧
      (shell.step s .run).any (fun s' => s'.halted = some (.exited 1)) = true := by
  have hrun : (shell.run initial interruptsEarly).any
      (fun s => decide (s.act .run = .kill .SIGINT 2 ∧ termGuard .SIGINT 2 = true ∧
        groupExists s 2 = false ∧
        (shell.step s .run).any (fun s' => s'.halted = some (.exited 1)) = true)) = true := by
    decide +kernel
  obtain ⟨s, hs, hp⟩ := (Option.any_eq_true _ _).mp hrun
  exact ⟨s, hs, of_decide_eq_true hp⟩

end Shell
