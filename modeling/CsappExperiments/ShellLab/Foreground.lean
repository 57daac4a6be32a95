import CsappExperiments.ShellLab.Registry

/-! # Shell Lab: the foreground job

    The header of `tsh.c` says that at most one job can be in the FG state.
    Nothing checks it. It holds because a job becomes FG on two paths only,
    in `eval` and in `do_bgfg`, and each of them then waits until the table
    no longer names the pid it waits for.

    `Foreground` ties the entries in state FG to the point of the main line;
    the signal handlers can only take entries out of that state.
-/

open CLib

namespace Shell

/-! ## Section 1: The invariant -/

/-- The entries that may be in state FG at a point of the main line. -/
def FgAllowed (t : JobTable) (i : Slot) : MainPc → Prop
  | .bgfgWait k => i = k
  | .waitfgTest _ pid | .waitfgSuspend _ pid | .waitfgSleep _ pid _ => (t.jobs i).pid = pid
  | _ => False

structure Foreground (t : JobTable) (main : MainPc) : Prop where
  unique : ∀ i k, (t.jobs i).state = .FG → (t.jobs k).state = .FG → i = k
  allowed : ∀ i, (t.jobs i).state = .FG → FgAllowed t i main

theorem foreground_initial : Foreground initjobs .top where
  unique := by intro i k hi; cases hi
  allowed := by intro i hi; cases hi

namespace Foreground

variable {t : JobTable} {main : MainPc}

/-! ### The moves keep the invariant -/

/-- Entries may leave the state FG, and the other entries change at will. -/
theorem shrink (h : Foreground t main) {t' : JobTable}
    (hsub : ∀ i, (t'.jobs i).state = .FG → t'.jobs i = t.jobs i) : Foreground t' main where
  unique := by
    intro i k hi hk
    have hi' : (t.jobs i).state = .FG := by rw [← hsub i hi]; exact hi
    have hk' : (t.jobs k).state = .FG := by rw [← hsub k hk]; exact hk
    exact h.unique i k hi' hk'
  allowed := by
    intro i hi
    have heq := hsub i hi
    have hold : FgAllowed t i main := h.allowed i (by rw [← heq]; exact hi)
    cases main <;> simp only [FgAllowed, heq] at hold ⊢ <;> exact hold

theorem wake (h : Foreground t main) : Foreground t main.wake where
  unique := h.unique
  allowed := by
    intro i hi
    have hold := h.allowed i hi
    cases main <;> exact hold

theorem delete (h : Foreground t main) (pid : Pid) : Foreground (deletejob t pid).2 main := by
  refine h.shrink ?_
  intro i hi
  rcases deletejob_jobs t pid i with hsame | ⟨_, hcleared⟩
  · exact hsame
  · rw [hcleared] at hi
    cases hi

theorem stop (h : Foreground t main) (k : Slot) : Foreground (t.setState k .ST) main := by
  refine h.shrink ?_
  intro i hi
  have hne : i ≠ k := by
    rintro rfl
    rw [setState_state_self] at hi
    cases hi
  exact setState_ne t .ST hne

/-- `waitfg` leaves its loop only when no entry is in state FG. -/
theorem mainLocal (h : Foreground t main) {main' : MainPc} (hloc : MainLocal t main main') :
    Foreground t main' where
  unique := h.unique
  allowed := by
    intro i hi
    have hold := h.allowed i hi
    cases hloc with
    | wait k =>
      -- `do_bgfg` reads the pid of the slot that it has put into state FG
      obtain rfl : i = k := hold
      rfl
    | again | suspend => exact hold
    | leave caller pid hne =>
      -- an entry in state FG would have the pid that the test compares with
      obtain ⟨k, hk, hfg⟩ := fgpid_spec hi
      have hpid : (t.jobs k).pid = pid := h.allowed k hk
      exact absurd (hfg.trans hpid).symm hne
    -- at the other points there was no entry in state FG
    | _ => exact hold.elim

/-- `addjob` is called when there is no foreground job. -/
theorem addjob (h : ∀ i, (t.jobs i).state ≠ .FG) {pid : Pid} (hpid : 1 ≤ pid) (bg : Bool)
    (cmdline : CStr) {prev : SigSet} :
    Foreground (addjob t pid (if bg then .BG else .FG) cmdline).2
      (if bg then .evalUnblock cmdline pid prev else .waitfgTest .eval pid) := by
  rcases addjob_cases hpid (if bg then .BG else .FG) cmdline with ⟨_, heq⟩ | ⟨k, _, _, heq⟩
  · rw [heq]
    exact ⟨fun i _ hi => absurd hi (h i), fun i hi => absurd hi (h i)⟩
  · rw [heq]
    -- only the new entry can be in state FG
    have hnew : ∀ i,
        (({ t.setJob k ⟨pid, t.nextjid, if bg then .BG else .FG, cmdline⟩ with
            nextjid := succjid t.nextjid } : JobTable).jobs i).state = .FG → i = k := by
      intro i hi
      by_contra hne
      exact h i (by simpa [hne] using hi)
    refine ⟨fun i j hi hj => (hnew i hi).trans (hnew j hj).symm, ?_⟩
    intro i hi
    obtain rfl := hnew i hi
    cases bg with
    | true => simp at hi
    | false => simp [FgAllowed]

theorem store (h : ∀ i, (t.jobs i).state ≠ .FG) (fg : Bool) (k : Slot) :
    Foreground (t.setState k (if fg then .FG else .BG))
      (if fg then .bgfgWait k else .bgfgPrint k) := by
  have hnew : ∀ i, ((t.setState k (if fg then .FG else .BG)).jobs i).state = .FG →
      i = k ∧ fg = true := by
    intro i hi
    by_cases hik : i = k
    · subst hik
      refine ⟨rfl, ?_⟩
      cases fg with
      | true => rfl
      | false => simp at hi
    · rw [setState_ne t _ hik] at hi
      exact absurd hi (h i)
  refine ⟨fun i j hi hj => (hnew i hi).1.trans (hnew j hj).1.symm, ?_⟩
  intro i hi
  obtain ⟨rfl, rfl⟩ := hnew i hi
  rfl

end Foreground

theorem foreground_move {v v' : View} {a : Act}
    (hreg : Registry v.table v.procs v.main v.chld) (h : Foreground v.table v.main)
    (hm : Move v a v') : Foreground v'.table v'.main := by
  cases hm with
  | wake | enter => exact h.wake
  | delete how pid => exact h.delete pid
  | stop pid i prev hpc => exact h.stop i
  | main m hnone hloc => exact h.mainLocal hloc
  | fork bg cmdline prev pid hnone hmain hpid hfresh =>
    rw [hmain] at h
    exact ⟨h.unique, fun i hi => (h.allowed i hi).elim⟩
  | addjob bg cmdline pid prev hnone hmain =>
    have hpid : 1 < pid := hreg.newborn_lt (by rw [hmain]; rfl)
    rw [hmain] at h
    exact Foreground.addjob (fun i hi => h.allowed i hi) hpid.le bg cmdline
  | cont fg i hnone hmain =>
    rw [hmain] at h
    exact ⟨h.unique, fun k hk => (h.allowed k hk).elim⟩
  | store fg i hnone hmain =>
    rw [hmain] at h
    exact Foreground.store (fun k hk => h.allowed k hk) fg i
  | _ => exact h

theorem reachable_foreground {s : State} (h : shell.Reachable s) : Foreground s.table s.main :=
  shell_abstraction.invariant_given (fun v => Registry v.table v.procs v.main v.chld)
    (fun _ hr => reachable_registry hr) (fun v => Foreground v.table v.main) (fun _ _ => True)
      foreground_initial
    (fun _ _ _ hreg hinv _ hm => foreground_move hreg hinv hm) h

/-- What is known of the view of every reachable state. -/
structure Consistent (v : View) : Prop where
  registry : Registry v.table v.procs v.main v.chld
  foreground : Foreground v.table v.main

theorem reachable_consistent (s : State) (h : shell.Reachable s) : Consistent s.view :=
  ⟨reachable_registry h, reachable_foreground h⟩

/-! ## Section 2: Uniqueness and the prompt -/

/-- There is at most one foreground job. When control is at the top of the
    read/eval loop there is none, and no signal is blocked. -/
theorem foreground_discipline {s : State} (h : shell.Reachable s) :
    (∀ i k, (s.table.jobs i).state = .FG → (s.table.jobs k).state = .FG → i = k) ∧
    (s.main = .top →
      (∀ i, (s.table.jobs i).state ≠ .FG) ∧ (s.frames = [] → s.blocked = ∅)) := by
  have hfg := reachable_foreground h
  have hmask := (reachable_mask h).base
  refine ⟨hfg.unique, ?_⟩
  intro hmain
  rw [hmain] at hfg hmask
  refine ⟨fun i hi => hfg.allowed i hi, ?_⟩
  intro hf
  rw [hf] at hmask
  exact hmask

/-- A foreground job sleeps in `waitfg`, and ends; then comes the prompt. -/
theorem foreground_discipline_run :
    ∃ s ls s', shell.Reachable s ∧ (s.table.jobs 0).state = .FG ∧ shell.run s ls = some s' ∧
      s'.main = .top ∧
      s'.blocked = ∅ ∧ ∀ i, (s'.table.jobs i).state ≠ .FG := by
  have hrun : (shell.run initial (launchFg 2 ++ [.run, .run])).any
      (fun s => decide ((s.table.jobs 0).state = .FG) &&
        (shell.run s ([.child 2 .exit] ++ handle 2 5 ++ [.run, .run, .run])).any
          fun s' => decide (s'.main = .top ∧ s'.frames = [])) = true := by
    decide +kernel
  obtain ⟨s, hs, hp⟩ := LTS.System.Reachable.init.exists_run hrun
  obtain ⟨hfg, hrest⟩ := Bool.and_eq_true_iff.mp hp
  obtain ⟨s', hs', hp'⟩ := (Option.any_eq_true _ _).mp hrest
  obtain ⟨hmain, hf⟩ := of_decide_eq_true hp'
  obtain ⟨hnone, hblocked⟩ := (foreground_discipline (hs.run _ hs')).2 hmain
  exact ⟨s, _, s', hs, of_decide_eq_true hfg, hs', hmain, hblocked hf, hnone⟩

end Shell
