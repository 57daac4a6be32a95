import CsappExperiments.ShellLab.Foreground

/-! # Shell Lab: a full job table

    `eval` forks first and calls `addjob` afterwards, and it ignores the
    result. A child that `addjob` refuses runs without an entry in `jobs[]`.

    Two guarantees depend on the entry, and hold in the runs in which it is
    there:
    * `sigchld_handler` finds the job of every child that was killed or has
      stopped (`handler_finds_job`);
    * `eval` returns only after its foreground child has ended or stopped
      (`eval_waits`).
    Without it the handler dereferences NULL (`handler_crashes`), and `eval`
    returns while the child is running (`eval_returns_early`).
-/

open CLib

namespace Shell

/-! ## Section 1: The conditions -/

/-- `addjob` finds a free slot. -/
def Accepts (v : View) : Act → Prop
  | .addjob _ _ => freeSlot v.table ≠ none
  | _ => True

instance (v : View) : ∀ a, Decidable (Accepts v a)
  | .addjob _ _ => inferInstanceAs (Decidable (freeSlot v.table ≠ none))
  | .reap _ _ | .update _ _ | .store _ _ | .readFg | .kill _ _ | .leave _ | .other =>
    inferInstanceAs (Decidable True)

/-- `addjob` finds a free slot for a foreground job. -/
def AcceptsFg (v : View) : Act → Prop
  | .addjob false _ => freeSlot v.table ≠ none
  | _ => True

instance (v : View) : ∀ a, Decidable (AcceptsFg v a)
  | .addjob false _ => inferInstanceAs (Decidable (freeSlot v.table ≠ none))
  | .addjob true _ | .reap _ _ | .update _ _ | .store _ _ | .readFg | .kill _ _ | .leave _
  | .other => inferInstanceAs (Decidable True)

/-! ## Section 2: Every child has an entry -/

/-- Every child has an entry, until `sigchld_handler` has deleted it. -/
structure Entered (t : JobTable) (procs : ProcTable) (main : MainPc) (chld : Option ChldPc)
    (crashed : Bool) : Prop where
  entry : ∀ p, p ∈ procs ∨ dyingOf chld = some p → main.newborn ≠ some p →
    ∃ i, (t.jobs i).pid = p
  found : ∀ pc, chld = some pc → pc.null = false
  alive : crashed = false

theorem entered_initial : Entered initjobs ∅ .top none false where
  entry := by
    intro p hp
    rcases hp with hp | hp
    · exact absurd hp (AList.notMem_empty p)
    · cases hp
  found := by intro pc hpc; cases hpc
  alive := rfl

/-- A report is about a child that has not been deleted. -/
theorem Registry.reported {t : JobTable} {procs : ProcTable} {main : MainPc} {how : Report}
    {pid : Pid} (h : Registry t procs main (some (.reported how pid))) :
    1 < pid ∧ (pid ∈ procs ∨ dyingOf (some (.reported how pid)) = some pid) := by
  cases hterm : how.terminal with
  | true =>
    have hdying : dyingOf (some (.reported how pid)) = some pid := by simp [ChldPc.dying, hterm]
    exact ⟨(h.gone pid hdying).1, .inr hdying⟩
  | false =>
    have hstopping : stoppingOf (some (.reported how pid)) = some pid := by
      simp [ChldPc.stopping, hterm]
    have hmem := (h.stopped pid hstopping).1
    exact ⟨h.children pid hmem, .inl hmem⟩

namespace Entered

variable {t : JobTable} {procs : ProcTable} {main : MainPc} {chld : Option ChldPc} {crashed : Bool}

/-- `getjobpid` finds the job of a report. -/
theorem getjobpid_reported {how : Report} {pid : Pid}
    (h : Entered t procs main (some (.reported how pid)) crashed)
    (hreg : Registry t procs main (some (.reported how pid))) : getjobpid t pid ≠ none := by
  obtain ⟨hpid, hmem⟩ := hreg.reported
  have hnew : main.newborn = none := hreg.newborn_none (Option.some_ne_none _)
  obtain ⟨i, hi⟩ := h.entry pid hmem (by simp [hnew])
  exact getjobpid_ne_none hpid.le hi

theorem handler {pc pc' : ChldPc} (h : Entered t procs main (some pc) crashed)
    (hreg : Registry t procs main (some pc)) (hloc : ChldLocal t pc pc') :
    Entered t procs main (some pc') crashed where
  entry := by simpa [hloc.dying] using h.entry
  found := by
    rintro _ ⟨⟩
    cases hloc with
    | lookup how pid hne =>
      cases hfind : getjobpid t pid with
      | none => exact absurd hfind (h.getjobpid_reported hreg)
      | some i => rfl
    | blockAll how pid i prev => cases how <;> rfl
    | _ => rfl
  alive := h.alive

theorem delete {how : Report} {pid : Pid} {i : Option Slot} {prev : SigSet}
    (h : Entered t procs main (some (.masked how pid i prev)) crashed)
    (hreg : Registry t procs main (some (.masked how pid i prev))) (hterm : how.terminal = true) :
    Entered (deletejob t pid).2 procs main (some (.updated prev)) crashed where
  entry := by
    intro p hp hnew
    have hmem : p ∈ procs := hp.resolve_right (by simp [ChldPc.dying])
    obtain ⟨k, hk⟩ := h.entry p (.inl hmem) hnew
    -- the deleted entry is one of another pid
    have hne : (t.jobs k).pid ≠ pid := by
      rw [hk]
      rintro rfl
      exact (hreg.deleting rfl hterm).2 hmem
    exact ⟨k, by rw [deletejob_ne hne, hk]⟩
  found := by rintro _ ⟨⟩; rfl
  alive := h.alive

theorem fork (h : Entered t procs main none crashed) {bg : Bool} {cmdline : CStr} {pid : Pid}
    {prev : SigSet} (hnew : main.newborn = none) :
    Entered t (procs.insert pid ⟨.running, false⟩) (.evalForked bg cmdline pid prev) none
      crashed where
  entry := by
    -- the new child is the newborn one, which needs no entry yet
    intro p hp hne
    rcases (AList.mem_insert procs).mp (hp.resolve_right (by simp)) with rfl | hmem
    · exact absurd rfl hne
    · exact h.entry p (.inl hmem) (by simp [hnew])
  found := by intro pc hpc; cases hpc
  alive := h.alive

theorem addjob {bg : Bool} {cmdline : CStr} {pid : Pid} {prev : SigSet} {main' : MainPc}
    (h : Entered t procs (.evalAdd bg cmdline pid prev) none crashed)
    (hreg : Registry t procs (.evalAdd bg cmdline pid prev) none) (hfree : freeSlot t ≠ none)
    (st : JobState) : Entered (addjob t pid st cmdline).2 procs main' none crashed where
  entry := by
    intro p hp _
    have hmem : p ∈ procs := hp.resolve_right (by simp)
    have hpid : 1 < pid := hreg.newborn_lt rfl
    rcases addjob_cases hpid.le st cmdline with ⟨hnone, _⟩ | ⟨k, _, hzero, heq⟩
    · exact absurd hnone hfree
    · rw [heq]
      by_cases hpp : p = pid
      · exact ⟨k, by simp [hpp]⟩
      · -- the slot of another child was in use, so it is not the one filled
        obtain ⟨i, hi⟩ := h.entry p (.inl hmem) (fun hnew => hpp (Option.some.inj hnew).symm)
        have hik : i ≠ k := by
          rintro rfl
          have hlt := hreg.children p hmem
          rw [← hi, hzero] at hlt
          exact absurd hlt (by decide)
        exact ⟨i, by simpa [hik] using hi⟩
  found := by intro pc hpc; cases hpc
  alive := h.alive

end Entered

theorem entered_move {v v' : View} {a : Act} (hreg : Registry v.table v.procs v.main v.chld)
    (h : Entered v.table v.procs v.main v.chld v.crashed) (hok : Accepts v a) (hm : Move v a v') :
    Entered v'.table v'.procs v'.main v'.chld v'.crashed := by
  cases hm with
  | quiet | raise | join | leave | readFg | drop => exact h
  | child pid ev c c' hc hev => exact { h with entry := by simpa using h.entry }
  | wake => exact { h with entry := by simpa using h.entry }
  | enter hnone hcrit =>
    rw [hnone] at h
    exact ⟨by simpa [ChldPc.dying] using h.entry, by rintro _ ⟨⟩; rfl, h.alive⟩
  | reap how pid c hwait hc hrep =>
    have hmem : pid ∈ v.procs := AList.lookup_isSome.mp (by rw [hc]; rfl)
    refine ⟨?_, by rintro _ ⟨⟩; rfl, h.alive⟩
    intro p hp hnew
    refine h.entry p (.inl ?_) hnew
    rcases hp with hp | hp
    · exact mem_of_mem_reap hp
    · obtain ⟨_, rfl⟩ : how.terminal = true ∧ pid = p := by simpa [ChldPc.dying] using hp
      exact hmem
  | drained hwait hall =>
    rw [hwait] at h
    exact ⟨h.entry, by rintro _ ⟨⟩; rfl, h.alive⟩
  | handler pc pc' hpc hloc =>
    rw [hpc] at h hreg
    exact h.handler hreg hloc
  | delete how pid i prev hpc hterm =>
    rw [hpc] at h hreg
    exact h.delete hreg hterm
  | stop pid i prev hpc =>
    rw [hpc] at h
    exact ⟨by simpa [ChldPc.dying, Report.terminal] using h.entry, by rintro _ ⟨⟩; rfl, h.alive⟩
  | crash _ pc hpc hnull =>
    -- not reached: the lookup has found the job
    rw [h.found pc hpc] at hnull
    cases hnull
  | chldReturn hpc =>
    rw [hpc] at h
    exact ⟨h.entry, by simp, h.alive⟩
  | main m hnone hloc => exact { h with entry := by simpa [hloc.newborn] using h.entry }
  | fork bg cmdline prev pid hnone hmain hpid hfresh =>
    rw [hnone] at h ⊢
    exact h.fork (by rw [hmain]; rfl)
  | addjob bg cmdline pid prev hnone hmain =>
    rw [hnone, hmain] at h hreg
    rw [hnone]
    exact h.addjob hreg hok _
  | cont fg i hnone hmain =>
    rw [hmain] at h
    exact { h with entry := by simpa [MainPc.newborn] using h.entry }
  | store fg i hnone hmain =>
    rw [hmain] at h
    exact { h with entry := by cases fg <;> simpa [MainPc.newborn] using h.entry }

/-- In the runs in which `addjob` refuses no job, every child that `waitpid`
    reports to `sigchld_handler` has an entry, and the handler never
    dereferences a NULL `job_ptr`. -/
theorem handler_finds_job {s : State}
    (h : shell.ReachableUnder (fun s l => Accepts s.view (s.act l)) s) :
    (∀ how pid, chldOf s.frames = some (.reported how pid) → getjobpid s.table pid ≠ none) ∧
    (∀ pc, chldOf s.frames = some pc → pc.null = false) ∧ s.halted ≠ some .crashed := by
  have hreg := reachable_registry h.reachable
  have hent : Entered s.table s.procs s.main (chldOf s.frames) s.view.crashed :=
    shell_abstraction.invariant_given Consistent reachable_consistent
      (fun v => Entered v.table v.procs v.main v.chld v.crashed) Accepts entered_initial
      (fun _ _ _ hv hinv hok hm => entered_move hv.registry hinv hok hm) h
  refine ⟨?_, hent.found, ?_⟩
  · intro how pid hrep
    rw [hrep] at hent hreg
    exact hent.getjobpid_reported hreg
  · have halive : decide (s.halted = some .crashed) = false := hent.alive
    simpa using halive

/-- A background job is killed, and reported. -/
theorem handler_finds_job_run :
    ∃ s, shell.Reachable s ∧ chldOf s.frames = some (.reported .signaled 2) ∧
      getjobpid s.table 2 ≠ none := by
  have hrun : (shell.runUnder (fun s l => Accepts s.view (s.act l)) initial
      (launchBg 2 ++ [.child 2 .kill] ++ handle 2 0)).any
        (fun s => decide (chldOf s.frames = some (.reported .signaled 2))) = true := by
    decide +kernel
  obtain ⟨s, hs, hp⟩ := LTS.System.ReachableUnder.init.exists_run hrun
  have hrep := of_decide_eq_true hp
  exact ⟨s, hs.reachable, hrep, (handler_finds_job hs).1 _ _ hrep⟩

/-- A background job in every slot, and one more, whose child is killed. -/
def killRefused : List Label := launchAll ++ launchBg 18 ++ [.child 18 .kill] ++ handle 18 0

/-- `getjobpid` returns NULL for the refused child, and the handler
    dereferences it. -/
theorem handler_crashes :
    ∃ s, shell.run initial killRefused = some s ∧
      chldOf s.frames = some (.reported .signaled 18) ∧ getjobpid s.table 18 = none ∧
      (shell.run s [.run, .run]).any (fun s' => s'.halted = some .crashed) = true := by
  have hrun : (shell.run initial killRefused).any
      (fun s => decide (chldOf s.frames = some (.reported .signaled 18) ∧
        getjobpid s.table 18 = none ∧
        (shell.run s [.run, .run]).any (fun s' => s'.halted = some .crashed) = true)) = true := by
    decide +kernel
  obtain ⟨s, hs, hp⟩ := (Option.any_eq_true _ _).mp hrun
  exact ⟨s, hs, of_decide_eq_true hp⟩

/-! ## Section 3: What `eval` waits for -/

/-- The child `pid` has been reaped, or its stop has been recorded. -/
def Settled (t : JobTable) (procs : ProcTable) (pid : Pid) : Prop :=
  procs.lookup pid = none ∨
    ∃ i c, (t.jobs i).pid = pid ∧ (t.jobs i).state = .ST ∧ procs.lookup pid = some c ∧
      c.status ≠ .running

/-- The child `pid` is in the foreground, or settled. -/
def Awaited (t : JobTable) (procs : ProcTable) (pid : Pid) : Prop :=
  (∃ i, (t.jobs i).pid = pid ∧ (t.jobs i).state = .FG) ∨ Settled t procs pid

/-- What holds of the child of `eval`'s foreground path, point by point. -/
def EvalContract (t : JobTable) (procs : ProcTable) : MainPc → Prop
  | .waitfgTest .eval pid | .waitfgSuspend .eval pid | .waitfgSleep .eval pid _ =>
    Awaited t procs pid
  | .waitfgUnmask .eval pid | .evalReturn false pid => Settled t procs pid
  | _ => True

namespace EvalContract

variable {t t' : JobTable} {procs procs' : ProcTable} {main : MainPc}

theorem imp (h : EvalContract t procs main)
    (hfg : ∀ i pid, (t.jobs i).pid = pid → (t.jobs i).state = .FG → Awaited t' procs' pid)
    (hsettled : ∀ pid, Settled t procs pid → Settled t' procs' pid) :
    EvalContract t' procs' main := by
  have hawaited : ∀ pid, Awaited t procs pid → Awaited t' procs' pid := by
    intro pid haw
    rcases haw with ⟨i, hi, hst⟩ | hset
    · exact hfg i pid hi hst
    · exact .inr (hsettled pid hset)
  unfold EvalContract at h ⊢
  split <;> simp only at h
  · exact hawaited _ h
  · exact hawaited _ h
  · exact hawaited _ h
  · exact hsettled _ h
  · exact hsettled _ h
  · trivial

/-- The children change: none of them starts to run or comes back. -/
theorem children (h : EvalContract t procs main)
    (hnone : ∀ pid, procs.lookup pid = none → procs'.lookup pid = none)
    (hstopped : ∀ pid c, procs.lookup pid = some c → c.status ≠ .running →
      procs'.lookup pid = none ∨ ∃ c', procs'.lookup pid = some c' ∧ c'.status ≠ .running) :
    EvalContract t procs' main := by
  refine h.imp (fun i pid hi hst => .inl ⟨i, hi, hst⟩) ?_
  intro pid hset
  rcases hset with hgone | ⟨i, c, hi, hst, hc, hrun⟩
  · exact .inl (hnone pid hgone)
  · rcases hstopped pid c hc hrun with hgone | ⟨c', hc', hrun'⟩
    · exact .inl hgone
    · exact .inr ⟨i, c', hi, hst, hc', hrun'⟩

theorem child (h : EvalContract t procs main) {pid : Pid} {ev : ChildEvent} {c c' : Proc}
    (hc : procs.lookup pid = some c) (hev : ev.apply c = some c') :
    EvalContract t (setProc procs pid c') main := by
  refine h.children ?_ ?_
  · intro p hp
    by_cases hpid : p = pid
    · subst hpid
      simp [hp]
    · simpa [hpid] using hp
  · intro p d hd hrun
    right
    by_cases hpid : p = pid
    · subst hpid
      refine ⟨c', by simp [hd], ?_⟩
      obtain rfl : d = c := Option.some.inj (hd.symm.trans hc)
      rcases ChildEvent.apply_spec hev with ⟨_, hrunning, _⟩ | ⟨_, hnot, _⟩
      · exact absurd hrunning hrun
      · exact hnot
    · exact ⟨d, by simpa [hpid] using hd, hrun⟩

theorem reap (h : EvalContract t procs main) {pid : Pid} {how : Report} :
    EvalContract t (reap procs pid how) main := by
  -- a child that has terminated is gone, one that has stopped is marked as reported
  have hself : (Shell.reap procs pid how).lookup pid = none ∨
      (Shell.reap procs pid how).lookup pid =
        (procs.lookup pid).map fun c => { c with status := .stopped true } := by
    cases how with
    | stopped => exact .inr (lookup_reap_stopped procs pid)
    | exited | signaled => exact .inl (AList.lookup_eq_none.mpr (notMem_reap rfl))
  refine h.children ?_ ?_
  · intro p hp
    by_cases hpid : p = pid
    · subst hpid
      rcases hself with hnone | heq
      · exact hnone
      · rw [heq, hp]
        rfl
    · rw [lookup_reap_ne procs how hpid]
      exact hp
  · intro p c hc hrun
    by_cases hpid : p = pid
    · subst hpid
      rcases hself with hnone | heq
      · exact .inl hnone
      · exact .inr ⟨{ c with status := .stopped true }, by rw [heq, hc]; rfl, by simp⟩
    · exact .inr ⟨c, by rw [lookup_reap_ne procs how hpid]; exact hc, hrun⟩

/-- The child whose entry is deleted has been reaped. -/
theorem delete (h : EvalContract t procs main) {pid : Pid} (hgone : pid ∉ procs) :
    EvalContract (deletejob t pid).2 procs main := by
  have hnone : procs.lookup pid = none := AList.lookup_eq_none.mpr hgone
  refine h.imp ?_ ?_
  · rintro i _ rfl hst
    by_cases hi : (t.jobs i).pid = pid
    · rw [hi]
      exact .inr (.inl hnone)
    · exact .inl ⟨i, by rw [deletejob_ne hi], by rw [deletejob_ne hi, hst]⟩
  · rintro p (hset | ⟨i, c, rfl, hst, hc, hrun⟩)
    · exact .inl hset
    · by_cases hi : (t.jobs i).pid = pid
      · rw [hi]
        exact .inl hnone
      · exact .inr ⟨i, c, by rw [deletejob_ne hi], by rw [deletejob_ne hi, hst], hc, hrun⟩

/-- The entry that becomes ST is the one of a child that has stopped. -/
theorem stop (h : EvalContract t procs main) {k : Slot} {c : Proc}
    (hc : procs.lookup (t.jobs k).pid = some c) (hrun : c.status ≠ .running) :
    EvalContract (t.setState k .ST) procs main := by
  have hk : Settled (t.setState k .ST) procs (t.jobs k).pid :=
    .inr ⟨k, c, by simp, by simp, hc, hrun⟩
  refine h.imp ?_ ?_
  · rintro i _ rfl hst
    by_cases hik : i = k
    · rw [hik]
      exact .inr hk
    · exact .inl ⟨i, by simp, by simp [hik, hst]⟩
  · rintro p (hset | ⟨i, d, rfl, hst, hd, hrun'⟩)
    · exact .inl hset
    · by_cases hik : i = k
      · rw [hik]
        exact hk
      · exact .inr ⟨i, d, by simp, by simp [hik, hst], hd, hrun'⟩

/-- `waitfg` leaves its loop when the child is no longer the foreground job. -/
theorem mainLocal (h : EvalContract t procs main) (hfg : Foreground t main) {main' : MainPc}
    (hloc : MainLocal t main main') : EvalContract t procs main' := by
  cases hloc with
  | leave caller pid hne =>
    cases caller with
    | doBgfg => trivial
    | eval =>
      rcases (show Awaited t procs pid from h) with ⟨i, hi, hst⟩ | hset
      · -- still in the foreground: then the test would have succeeded
        obtain ⟨k, hk, heq⟩ := fgpid_spec hst
        have hpid : (t.jobs k).pid = pid := hfg.allowed k hk
        exact absurd (heq.trans hpid).symm hne
      · exact hset
  | again caller pid | suspend caller pid => cases caller <;> exact h
  | evalDone pid => exact h
  | _ => trivial

theorem addjob {pid : Pid} (hpid : 1 ≤ pid) {bg : Bool} (hfree : bg = false → freeSlot t ≠ none)
    {cmdline : CStr} {prev : SigSet} :
    EvalContract (addjob t pid (if bg then .BG else .FG) cmdline).2 procs
      (if bg then .evalUnblock cmdline pid prev else .waitfgTest .eval pid) := by
  cases bg with
  | true => trivial
  | false =>
    rcases addjob_cases hpid .FG cmdline with ⟨hnone, _⟩ | ⟨k, _, _, heq⟩
    · exact absurd hnone (hfree rfl)
    · show Awaited (Shell.addjob t pid .FG cmdline).2 procs pid
      rw [heq]
      exact .inl ⟨k, by simp, by simp⟩

end EvalContract

theorem contract_move {v v' : View} {a : Act} (hv : Consistent v)
    (h : EvalContract v.table v.procs v.main) (hok : AcceptsFg v a) (hm : Move v a v') :
    EvalContract v'.table v'.procs v'.main := by
  obtain ⟨hreg, hfg⟩ := hv
  -- an interrupted `sigsuspend` waits for the same job
  have hwake : EvalContract v.table v.procs v.main.wake := by
    generalize v.main = m at h
    cases m with
    | waitfgSleep caller pid old => cases caller <;> exact h
    | _ => exact h
  cases hm with
  | quiet | raise | join | leave | drained | handler | crash | chldReturn | readFg | drop => exact h
  | child pid ev c c' hc hev => exact h.child hc hev
  | wake | enter => exact hwake
  | reap how pid c hwait hc hrep => exact h.reap
  | delete how pid i prev hpc hterm => exact h.delete (hreg.deleting hpc hterm).2
  | stop pid i prev hpc =>
    obtain ⟨hi, _, c, hc, hrun⟩ := hreg.marking hpc
    exact h.stop (by rw [hi]; exact hc) hrun
  | main m hnone hloc => exact h.mainLocal hfg hloc
  | fork => trivial
  | addjob bg cmdline pid prev hnone hmain =>
    have hpid : 1 < pid := hreg.newborn_lt (by rw [hmain]; rfl)
    refine EvalContract.addjob hpid.le ?_
    rintro rfl
    exact hok
  | cont => trivial
  | store fg i hnone hmain => cases fg <;> trivial

/-- In the runs in which `addjob` refuses no foreground job, the child of a
    foreground `eval` that returns has been reaped, or has stopped and is
    recorded as ST. -/
theorem eval_waits {s : State} {pid : Pid}
    (h : shell.ReachableUnder (fun s l => AcceptsFg s.view (s.act l)) s)
    (hmain : s.main = .evalReturn false pid) : Settled s.table s.procs pid := by
  have hinv : EvalContract s.table s.procs s.main :=
    shell_abstraction.invariant_given Consistent reachable_consistent
      (fun v => EvalContract v.table v.procs v.main) AcceptsFg trivial
      (fun _ _ _ hv hinv hok hm => contract_move hv hinv hok hm) h
  rw [hmain] at hinv
  exact hinv

/-- `eval` returns after its child has stopped. -/
theorem eval_waits_run :
    ∃ s, shell.Reachable s ∧ 2 ∈ s.procs ∧ Settled s.table s.procs 2 := by
  have hrun : (shell.runUnder (fun s l => AcceptsFg s.view (s.act l)) initial
      (launchFg 2 ++ [.run, .run, .child 2 .stop] ++ handle 2 7 ++ [.run, .run])).any
        (fun s => decide (s.main = .evalReturn false 2 ∧ 2 ∈ s.procs)) = true := by
    decide +kernel
  obtain ⟨s, hs, hp⟩ := LTS.System.ReachableUnder.init.exists_run hrun
  obtain ⟨hmain, hmem⟩ := of_decide_eq_true hp
  exact ⟨s, hs.reachable, hmem, eval_waits hs hmain⟩

/-- A background job in every slot, and a foreground command line. -/
def foregroundRefused : List Label := launchAll ++ launchFg 18 ++ [.run, .run]

/-- `eval` returns while the refused child is running. -/
theorem eval_returns_early :
    ∃ s, shell.run initial foregroundRefused = some s ∧ s.main = .evalReturn false 18 ∧
      ¬ Settled s.table s.procs 18 := by
  have hrun : (shell.run initial foregroundRefused).any
      (fun s => decide (s.main = .evalReturn false 18 ∧
        s.procs.lookup 18 = some ⟨.running, false⟩)) = true := by
    decide +kernel
  obtain ⟨s, hs, hp⟩ := (Option.any_eq_true _ _).mp hrun
  obtain ⟨hmain, hc⟩ := of_decide_eq_true hp
  refine ⟨s, hs, hmain, ?_⟩
  rintro (hnone | ⟨_, d, _, _, hd, hrunning⟩)
  · rw [hc] at hnone
    cases hnone
  · obtain rfl : (⟨.running, false⟩ : Proc) = d := Option.some.inj (hc.symm.trans hd)
    exact hrunning rfl

end Shell
