import CsappExperiments.ShellLab.JobSlots
import CsappExperiments.ShellLab.StopReports

/-! # Shell Lab: sleeping in `waitfg`

    `waitfg` tests `pid == fgpid(jobs)` and then calls `sigsuspend`. When
    `eval` called it, every signal is blocked, and no handler comes between
    the test and the sleep. When `do_bgfg` called it, nothing is blocked:
    the job can end or stop in between, `sigchld_handler` handles that, and
    the shell sleeps for a job that needs no more waiting.

    `Waiting` ties the sleep to an entry in state FG. With the results on
    reports (a process that needs a report has SIGCHLD pending) it gives
    that the shell sleeps only for a running process (`no_lost_wakeup`), in
    the runs in which the window between test and sleep is not hit.
-/

open CLib

namespace Shell

/-! ## Section 1: The invariant -/

/-- `waitfg` is about to call `sigsuspend`, or asleep in it. -/
def MainPc.sleepsFor : MainPc → Option Pid
  | .waitfgSuspend _ pid | .waitfgSleep _ pid _ => some pid
  | _ => none

structure Waiting (t : JobTable) (main : MainPc) (chld : Option ChldPc) : Prop where
  entry : ∀ pid ∈ main.sleepsFor, ∃ i, (t.jobs i).pid = pid ∧ (t.jobs i).state = .FG
  asleep : main.asleep = true → chld = none

/-- The condition: `sigchld_handler` does not update the entry of `fg`'s job
    between the test of `waitfg` and its `sigsuspend`. -/
def WindowMissed (v : View) : Act → Prop
  | .update _ pid => v.main ≠ .waitfgSuspend .doBgfg pid
  | _ => True

instance (v : View) : ∀ a, Decidable (WindowMissed v a)
  | .update _ pid => inferInstanceAs (Decidable (v.main ≠ .waitfgSuspend .doBgfg pid))
  | .reap _ _ | .store _ _ | .addjob _ _ | .readFg | .kill _ _ | .leave _ | .other =>
    inferInstanceAs (Decidable True)

namespace Waiting

variable {t t' : JobTable} {main : MainPc} {chld chld' : Option ChldPc}

/-- The main line is not near `sigsuspend`. -/
theorem of_awake (hsleep : main.sleepsFor = none) (hasleep : main.asleep = false) :
    Waiting t main chld where
  entry := by simp [hsleep]
  asleep := by simp [hasleep]

theorem wake (h : Waiting t main chld) : Waiting t main.wake chld' where
  entry := by
    cases main with
    | waitfgSleep => simp [MainPc.wake, MainPc.sleepsFor]
    | _ => exact h.entry
  asleep := by cases main <;> simp [MainPc.wake, MainPc.asleep]

/-- `sigchld_handler` is active, so `waitfg` is not asleep. -/
theorem active (h : Waiting t main chld) (hchld : chld ≠ none) : Waiting t main chld' :=
  { h with asleep := fun hasleep => absurd (h.asleep hasleep) hchld }

/-- An update for `pid` leaves the entry that `waitfg` sleeps for alone:
    only `do_bgfg`'s `waitfg` can be interrupted here, and not for its pid. -/
theorem update {pc : ChldPc} {pid : Pid} (h : Waiting t main (some pc))
    (hcrit : main.critical = true → some pc = none) (hmiss : main ≠ .waitfgSuspend .doBgfg pid)
    (hframe : ∀ i, (t.jobs i).pid ≠ pid → t'.jobs i = t.jobs i) : Waiting t' main chld' where
  entry := by
    intro p hp
    obtain ⟨i, hi, hst⟩ := h.entry p hp
    have hne : p ≠ pid := by
      rintro rfl
      cases main with
      | waitfgSuspend caller q =>
        cases caller with
        -- `eval` has blocked SIGCHLD, so its handler is not active
        | eval => cases hcrit rfl
        | doBgfg =>
          obtain rfl : q = p := Option.some.inj hp
          exact hmiss rfl
      | waitfgSleep => cases h.asleep rfl
      | _ => cases hp
    have heq := hframe i (by rw [hi]; exact hne)
    exact ⟨i, by rw [heq, hi], by rw [heq, hst]⟩
  asleep := fun hasleep => by cases h.asleep hasleep

/-- The test of `waitfg` finds its pid in an entry in state FG. -/
theorem mainLocal (h : Waiting t main none) (hwaited : ∀ pid ∈ main.waitedPid, 1 ≤ pid)
    {main' : MainPc} (hloc : MainLocal t main main') : Waiting t main' none where
  entry := by
    cases hloc with
    | again caller pid heq =>
      rintro _ ⟨⟩
      have hpos : 1 ≤ pid := hwaited pid rfl
      have hne : fgpid t ≠ 0 := by
        rw [← heq]
        rintro rfl
        exact absurd hpos (by decide)
      obtain ⟨i, hst, hi⟩ := fgpid_ne_zero hne
      exact ⟨i, hi.trans heq.symm, hst⟩
    | suspend => exact h.entry
    | _ => simp [MainPc.sleepsFor]
  asleep := fun _ => rfl

end Waiting

theorem waiting_move {F : Bool → Prop} {v v' : View} {a : Act}
    (hreg : Registry v.table v.procs v.main v.chld) (hptr : JobPtr F v.table v.main)
    (h : Waiting v.table v.main v.chld) (hok : WindowMissed v a) (hm : Move v a v') :
    Waiting v'.table v'.main v'.chld := by
  cases hm with
  | quiet | raise | child | join | leave | crash | readFg | drop => exact h
  | wake | enter => exact h.wake
  | reap how pid c hpc | drained hpc | handler pc pc' hpc =>
    exact h.active (by simp [hpc])
  | chldReturn hpc => exact ⟨h.entry, fun _ => rfl⟩
  | delete how pid i prev hpc hterm =>
    rw [hpc] at h hreg
    exact h.update hreg.critical hok fun _ hk => deletejob_ne hk
  | stop pid i prev hpc =>
    rw [hpc] at h hreg
    refine h.update hreg.critical hok ?_
    intro k hk
    refine setState_ne v.table .ST ?_
    rintro rfl
    exact hk (hreg.marking rfl).1
  | main m hnone hloc =>
    rw [hnone] at h ⊢
    exact h.mainLocal hptr.waited hloc
  | fork | cont => exact .of_awake rfl rfl
  | addjob bg cmdline pid prev hnone hmain =>
    exact .of_awake (by cases bg <;> rfl) (by cases bg <;> rfl)
  | store fg i hnone hmain => exact .of_awake (by cases fg <;> rfl) (by cases fg <;> rfl)

/-! ## Section 2: No lost wake-up -/

/-- When `waitfg` executes `sigsuspend` and no SIGCHLD is pending, the job it
    waits for is in the foreground and its process is running. -/
def SleepsForRunning (s : State) : Prop :=
  s.frames = [] → Sig.SIGCHLD ∉ s.pending → ∀ pid, s.main.sleepsFor = some pid →
    ∃ i c, (s.table.jobs i).pid = pid ∧ (s.table.jobs i).state = .FG ∧
      s.procs.lookup pid = some c ∧ c.status = .running

/-- The condition on the steps of a run: the window is not hit, `fg`'s job is
    not deleted while `fg` holds its slot, and `fg` does not store FG over a
    reported stop. -/
def WakeSafe (v : View) (a : Act) : Prop :=
  WindowMissed v a ∧ KeepsJob (· = true) v a ∧ StoreFollowsCont (· = .FG) v a

instance (v : View) (a : Act) : Decidable (WakeSafe v a) :=
  inferInstanceAs
    (Decidable (WindowMissed v a ∧ KeepsJob (· = true) v a ∧ StoreFollowsCont (· = .FG) v a))

theorem reachable_waiting {s : State}
    (h : shell.ReachableUnder (fun s l => WakeSafe s.view (s.act l)) s) :
    Waiting s.table s.main (chldOf s.frames) := by
  have hboth : JobPtr (· = true) s.table s.main ∧ Waiting s.table s.main (chldOf s.frames) :=
    shell_abstraction.invariant_given Consistent reachable_consistent
      (fun v => JobPtr (· = true) v.table v.main ∧ Waiting v.table v.main v.chld) WakeSafe
      ⟨.initial, .of_awake rfl rfl⟩
      (fun _ _ _ hv hinv hok hm =>
        ⟨jobPtr_move (F := (· = true)) rfl hv.registry hinv.1 hok.2.1 hm,
          waiting_move hv.registry hinv.1 hinv.2 hok.1 hm⟩) h
  exact hboth.2

/-- The shell is never asleep for a job whose end or stop has been handled. -/
theorem no_lost_wakeup {s : State}
    (h : shell.ReachableUnder (fun s l => WakeSafe s.view (s.act l)) s) : SleepsForRunning s := by
  intro hf hsig pid hpid
  obtain ⟨i, hi, hst⟩ := (reachable_waiting h).entry pid hpid
  have hreg := reachable_registry h.reachable
  have hchld : chldOf s.frames = none := by rw [hf]; rfl
  have hpos : 1 ≤ pid := by
    have hptr : JobPtr (· = true) s.table s.main :=
      reachable_jobPtr (F := (· = true)) rfl (h.mono fun _ _ hok => hok.2.1)
    refine hptr.waited pid ?_
    cases hmain : s.main <;> rw [hmain] at hpid <;> first | exact hpid | cases hpid
  -- the entry belongs to a child, which has nothing to report
  have hmem : pid ∈ s.procs := by
    have howned := hreg.owned i (by rw [hi]; rintro rfl; exact absurd hpos (by decide))
    rw [hi, hchld] at howned
    exact howned.resolve_right (by simp)
  obtain ⟨c, hc⟩ := Option.isSome_iff_exists.mp (AList.lookup_isSome.mpr hmem)
  have hrep := nothing_to_report h.reachable hchld hsig hc
  have hmarked : c.status ≠ .stopped true := by
    intro hstop
    have hinv := reachable_stopMarked (S := (· = .FG)) (by decide)
      (h.mono fun _ _ hok => hok.2.2)
    have hstopping := hinv.marked i hst c (by rw [hi]; exact hc) hstop
    rw [hchld] at hstopping
    cases hstopping
  refine ⟨i, c, hi, hst, hc, ?_⟩
  revert hrep hmarked
  rcases c.status with _ | ⟨_ | _⟩ | _ | _ <;> simp [Status.report]

/-- The shell sleeps for a job that `fg` has continued. -/
theorem no_lost_wakeup_run :
    ∃ s, shell.Reachable s ∧ s.main = .waitfgSleep .doBgfg 2 ∅ ∧
      ∃ c, s.procs.lookup 2 = some c ∧ c.status = .running := by
  have hrun : (shell.runUnder (fun s l => WakeSafe s.view (s.act l)) initial
      (launchBg 2 ++ [.child 2 .setpgid, .child 2 .stop] ++ handle 2 7 ++
        [.readLine "fg %1\n".toList, .run, .run, .run, .run, .run, .run])).any
        (fun s => decide (s.frames = [] ∧ Sig.SIGCHLD ∉ s.pending ∧
          s.main = .waitfgSleep .doBgfg 2 ∅)) = true := by
    decide +kernel
  obtain ⟨s, hs, hp⟩ := LTS.System.ReachableUnder.init.exists_run hrun
  obtain ⟨hf, hsig, hmain⟩ := of_decide_eq_true hp
  obtain ⟨_, c, _, _, hc, hrunning⟩ := no_lost_wakeup hs hf hsig 2 (by rw [hmain]; rfl)
  exact ⟨s, hs.reachable, hmain, c, hc, hrunning⟩

/-- `fg %1`, whose job ends between the test and `sigsuspend`. -/
def endsAfterTest : List Label :=
  launchBg 2 ++ [.readLine "fg %1\n".toList, .run, .run, .run, .run, .run, .child 2 .exit] ++
    handle 2 5 ++ [.run]

/-- The shell sleeps, and no job is left to wake it. -/
theorem wakeup_lost :
    ∃ s, shell.run initial endsAfterTest = some s ∧ ¬ SleepsForRunning s ∧
      s.main = .waitfgSleep .doBgfg 2 ∅ ∧ s.procs.lookup 2 = none := by
  have hrun : (shell.run initial endsAfterTest).any
      (fun s => decide (s.frames = [] ∧ Sig.SIGCHLD ∉ s.pending ∧
        s.main = .waitfgSleep .doBgfg 2 ∅ ∧ s.procs.lookup 2 = none)) = true := by
    decide +kernel
  obtain ⟨s, hs, hp⟩ := (Option.any_eq_true _ _).mp hrun
  obtain ⟨hf, hsig, hmain, hprocs⟩ := of_decide_eq_true hp
  refine ⟨s, hs, ?_, hmain, hprocs⟩
  intro hsleep
  obtain ⟨_, c, _, _, hc, _⟩ := hsleep hf hsig 2 (by rw [hmain]; rfl)
  rw [hprocs] at hc
  cases hc

end Shell
