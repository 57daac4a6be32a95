import CsappExperiments.ShellLab.Foreground

/-! # Shell Lab: the slots of the job table

    `do_bgfg` looks a job up and keeps the pointer to its slot while it
    sends SIGCONT, stores the new state and reads the pid for `waitfg`.
    SIGCHLD is not blocked meanwhile, so the job can end and
    `sigchld_handler` can clear the slot under the pointer. `do_bgfg` then
    writes FG or BG to a cleared slot, and calls `waitfg(0)`.

    `JobPtr` is what holds of the pointer while no slot is cleared under it.
    Section 3 proves that the slots are then well formed
    (`slots_well_formed`).
-/

open CLib

namespace Shell

/-! ## Section 1: The pointer of `do_bgfg` -/

/-- The slot that `do_bgfg` is going to use, and whether the command is fg. -/
def MainPc.jobPtr : MainPc → Option (Bool × Slot)
  | .bgfgKill fg i | .bgfgStore fg i => some (fg, i)
  | .bgfgWait i => some (true, i)
  | _ => none

/-- The argument of the call of `waitfg` that is executing. -/
def MainPc.waitedPid : MainPc → Option Pid
  | .waitfgTest _ pid | .waitfgSuspend _ pid | .waitfgSleep _ pid _ | .waitfgUnmask _ pid =>
    some pid
  | _ => none

/-- The condition: the job that `do_bgfg` has looked up is not deleted while
    `do_bgfg` is going to use its slot. `F` selects fg, or bg, or both. -/
def KeepsJob (F : Bool → Prop) (v : View) : Act → Prop
  | .update how pid => how.terminal = true →
      ∀ ptr ∈ v.main.jobPtr, F ptr.1 → (v.table.jobs ptr.2).pid ≠ pid
  | _ => True

instance (F : Bool → Prop) [DecidablePred F] (v : View) : ∀ a, Decidable (KeepsJob F v a)
  | .update how pid => inferInstanceAs (Decidable (how.terminal = true →
      ∀ ptr ∈ v.main.jobPtr, F ptr.1 → (v.table.jobs ptr.2).pid ≠ pid))
  | .reap _ _ | .store _ _ | .addjob _ _ | .readFg | .kill _ _ | .leave _ | .other =>
    inferInstanceAs (Decidable True)

/-- What the main line knows of the slot it holds, and of the pid that
    `waitfg` waits for. -/
structure JobPtr (F : Bool → Prop) (t : JobTable) (main : MainPc) : Prop where
  held : ∀ ptr ∈ main.jobPtr, F ptr.1 → (t.jobs ptr.2).pid ≠ 0
  waited : ∀ pid ∈ main.waitedPid, 1 ≤ pid
  /-- A slot without a process has no job ID either. -/
  cleared : ∀ i, (t.jobs i).pid = 0 → (t.jobs i).jid = 0

/-- The slot that `do_bgfg` looks up is in use. -/
theorem bgfgJob_live {t : JobTable} (hcleared : ∀ i, (t.jobs i).pid = 0 → (t.jobs i).jid = 0)
    {argv0 : CStr} {argv1 : Option CStr} {i : Slot} (h : bgfgJob t argv0 argv1 = .ok i) :
    (t.jobs i).pid ≠ 0 := by
  intro hzero
  unfold bgfgJob at h
  dsimp only at h
  split at h
  · cases h
  · split at h
    · cases h
    · split at h
      · -- %jobid
        split at h
        · cases h
        · next k hfind =>
          cases h
          obtain ⟨hpos, hjid⟩ := getjobjid_some hfind
          rw [← hjid, hcleared i hzero] at hpos
          exact absurd hpos (by decide)
      · -- PID
        split at h
        · cases h
        · next k hfind =>
          cases h
          obtain ⟨hpos, hpid⟩ := getjobpid_some hfind
          rw [← hpid, hzero] at hpos
          exact absurd hpos (by decide)

@[simp] theorem wake_jobPtr (m : MainPc) : m.wake.jobPtr = m.jobPtr := by
  cases m <;> rfl

@[simp] theorem wake_waitedPid (m : MainPc) : m.wake.waitedPid = m.waitedPid := by
  cases m <;> rfl

namespace JobPtr

variable {F : Bool → Prop} {t : JobTable} {main : MainPc}

/-- Outside `do_bgfg` and `waitfg`. -/
theorem idle (hptr : main.jobPtr = none) (hwaited : main.waitedPid = none)
    (hcleared : ∀ i, (t.jobs i).pid = 0 → (t.jobs i).jid = 0) : JobPtr F t main where
  held := by simp [hptr]
  waited := by simp [hwaited]
  cleared := hcleared

theorem initial : JobPtr F initjobs .top := idle rfl rfl fun _ _ => rfl

theorem setState (h : JobPtr F t main) (i : Slot) (st : JobState) :
    JobPtr F (t.setState i st) main where
  held := by simpa using h.held
  waited := h.waited
  cleared := by simpa using h.cleared

theorem delete (h : JobPtr F t main) {pid : Pid}
    (hkeep : ∀ ptr ∈ main.jobPtr, F ptr.1 → (t.jobs ptr.2).pid ≠ pid) :
    JobPtr F (deletejob t pid).2 main where
  held := by
    intro ptr hptr hF
    rw [deletejob_ne (hkeep ptr hptr hF)]
    exact h.held ptr hptr hF
  waited := h.waited
  cleared := deletejob_forall (P := fun j => j.pid = 0 → j.jid = 0) (fun _ => rfl) h.cleared pid

theorem mainLocal (h : JobPtr F t main) (hF : F true)
    (hpids : ∀ i, (t.jobs i).pid = 0 ∨ 1 < (t.jobs i).pid) {main' : MainPc}
    (hloc : MainLocal t main main') : JobPtr F t main' := by
  refine { h with held := ?_, waited := ?_ }
  · cases hloc with
    | job argv0 argv1 fg i hjob =>
      rintro _ ⟨⟩ _
      exact bgfgJob_live h.cleared hjob
    | _ => simp [MainPc.jobPtr]
  · cases hloc with
    | wait i =>
      -- the pid that is passed to `waitfg` is read from the held slot
      rintro _ ⟨⟩
      have hne : (t.jobs i).pid ≠ 0 := h.held (true, i) rfl hF
      exact ((hpids i).resolve_left hne).le
    | again | leave | suspend => exact h.waited
    | _ => simp [MainPc.waitedPid]

theorem addjob {bg : Bool} {pid : Pid} (h : JobPtr F t main) (hpid : 1 ≤ pid) (st : JobState)
    (cmdline : CStr) {prev : SigSet} : JobPtr F (addjob t pid st cmdline).2
      (if bg then .evalUnblock cmdline pid prev else .waitfgTest .eval pid) where
  held := by cases bg <;> simp [MainPc.jobPtr]
  waited := by
    cases bg with
    | true => simp [MainPc.waitedPid]
    | false =>
      rintro _ ⟨⟩
      exact hpid
  cleared := by
    rcases addjob_cases hpid st cmdline with ⟨_, heq⟩ | ⟨k, _, _, heq⟩
    · rw [heq]
      exact h.cleared
    · rw [heq]
      intro i
      by_cases hik : i = k
      · subst hik
        intro hzero
        have hpid0 : pid = 0 := by simpa using hzero
        rw [hpid0] at hpid
        exact absurd hpid (by decide)
      · simpa [hik] using h.cleared i

end JobPtr

theorem jobPtr_move {F : Bool → Prop} (hF : F true) {v v' : View} {a : Act}
    (hreg : Registry v.table v.procs v.main v.chld) (h : JobPtr F v.table v.main)
    (hok : KeepsJob F v a) (hm : Move v a v') : JobPtr F v'.table v'.main := by
  cases hm with
  | wake | enter => exact ⟨by simpa using h.held, by simpa using h.waited, h.cleared⟩
  | delete how pid i prev hpc hterm => exact h.delete (hok hterm)
  | stop pid i prev hpc => exact h.setState i .ST
  | main m hnone hloc => exact h.mainLocal hF hreg.pids hloc
  | fork bg cmdline prev pid hnone hmain hpid hfresh => exact .idle rfl rfl h.cleared
  | addjob bg cmdline pid prev hnone hmain =>
    have hpid : 1 < pid := hreg.newborn_lt (by rw [hmain]; rfl)
    exact h.addjob hpid.le _ cmdline
  | cont fg i hnone hmain =>
    rw [hmain] at h
    exact ⟨h.held, by simp [MainPc.waitedPid], h.cleared⟩
  | store fg i hnone hmain =>
    rw [hmain] at h
    have hstored := h.setState i (if fg then .FG else .BG)
    cases fg with
    | true => exact ⟨hstored.held, by simp [MainPc.waitedPid], hstored.cleared⟩
    | false => exact .idle rfl rfl hstored.cleared
  | _ => exact h

theorem reachable_jobPtr {F : Bool → Prop} (hF : F true) {s : State}
    (h : shell.ReachableUnder (fun s l => KeepsJob F s.view (s.act l)) s) :
    JobPtr F s.table s.main :=
  shell_abstraction.invariant_given Consistent reachable_consistent
    (fun v => JobPtr F v.table v.main) (KeepsJob F) .initial
    (fun _ _ _ hv hinv hok hm => jobPtr_move hF hv.registry hinv hok hm) h

/-! ## Section 2: Well-formed slots -/

/-- As `clearjob` leaves it. -/
def Job.Cleared (j : Job) : Prop := j.pid = 0 ∧ j.jid = 0 ∧ j.state = .UNDEF

instance (j : Job) : Decidable j.Cleared :=
  inferInstanceAs (Decidable (j.pid = 0 ∧ j.jid = 0 ∧ j.state = .UNDEF))

/-- In use. -/
def Job.Live (j : Job) : Prop :=
  1 ≤ j.pid ∧ 1 ≤ j.jid ∧ (j.state = .FG ∨ j.state = .BG ∨ j.state = .ST)

instance (j : Job) : Decidable j.Live :=
  inferInstanceAs (Decidable (1 ≤ j.pid ∧ 1 ≤ j.jid ∧
    (j.state = .FG ∨ j.state = .BG ∨ j.state = .ST)))

def WellFormed (t : JobTable) : Prop := ∀ i, (t.jobs i).Cleared ∨ (t.jobs i).Live

/-- The condition: the counter has not overflowed when `addjob` uses it. -/
def CounterPositive (v : View) : Act → Prop
  | .addjob _ _ => freeSlot v.table ≠ none → 1 ≤ v.table.nextjid
  | _ => True

instance (v : View) : ∀ a, Decidable (CounterPositive v a)
  | .addjob _ _ => inferInstanceAs (Decidable (freeSlot v.table ≠ none → 1 ≤ v.table.nextjid))
  | .reap _ _ | .update _ _ | .store _ _ | .readFg | .kill _ _ | .leave _ | .other =>
    inferInstanceAs (Decidable True)

namespace WellFormed

variable {t : JobTable}

/-- A store to the state of a slot that is in use. -/
theorem setState (h : WellFormed t) {i : Slot} (hi : (t.jobs i).pid ≠ 0) {st : JobState}
    (hst : st = .FG ∨ st = .BG ∨ st = .ST) : WellFormed (t.setState i st) := by
  intro k
  by_cases hki : k = i
  · subst hki
    right
    rcases h k with hcleared | hlive
    · exact absurd hcleared.1 hi
    · refine ⟨by simpa using hlive.1, by simpa using hlive.2.1, ?_⟩
      rw [setState_state_self]
      exact hst
  · rw [setState_ne t st hki]
    exact h k

theorem delete (h : WellFormed t) (pid : Pid) : WellFormed (deletejob t pid).2 :=
  deletejob_forall (P := fun j => j.Cleared ∨ j.Live) (.inl ⟨rfl, rfl, rfl⟩) h pid

theorem addjob (h : WellFormed t) {pid : Pid} (hpid : 1 ≤ pid)
    (hjid : freeSlot t ≠ none → 1 ≤ t.nextjid) {st : JobState}
    (hst : st = .FG ∨ st = .BG ∨ st = .ST) (cmdline : CStr) :
    WellFormed (addjob t pid st cmdline).2 := by
  rcases addjob_cases hpid st cmdline with ⟨_, heq⟩ | ⟨k, hfree, _, heq⟩
  · rw [heq]
    exact h
  · rw [heq]
    intro i
    by_cases hik : i = k
    · subst hik
      right
      have hpos : 1 ≤ t.nextjid := hjid (by simp [hfree])
      simpa [Job.Live] using ⟨hpid, hpos, hst⟩
    · simpa [hik] using h i

end WellFormed

theorem wellFormed_move {v v' : View} {a : Act} (hreg : Registry v.table v.procs v.main v.chld)
    (hptr : JobPtr (fun _ => True) v.table v.main) (h : WellFormed v.table)
    (hok : CounterPositive v a) (hm : Move v a v') : WellFormed v'.table := by
  cases hm with
  | delete how pid => exact h.delete pid
  | stop pid i prev hpc =>
    obtain ⟨hi, hlt, _⟩ := hreg.marking hpc
    refine h.setState ?_ (.inr (.inr rfl))
    rw [hi]
    rintro rfl
    exact absurd hlt (by decide)
  | addjob bg cmdline pid prev hnone hmain =>
    have hpid : 1 < pid := hreg.newborn_lt (by rw [hmain]; rfl)
    exact h.addjob hpid.le hok (by cases bg <;> simp) cmdline
  | store fg i hnone hmain =>
    rw [hmain] at hptr
    exact h.setState (hptr.held (fg, i) rfl trivial) (by cases fg <;> simp)
  | _ => exact h

/-! ## Section 3: The runs in which the slots stay well formed -/

/-- The condition on the steps of a run: `do_bgfg`'s job is not deleted
    under its pointer, and `nextjid` has not overflowed. -/
def SlotSafe (v : View) (a : Act) : Prop := KeepsJob (fun _ => True) v a ∧ CounterPositive v a

instance (v : View) (a : Act) : Decidable (SlotSafe v a) :=
  inferInstanceAs (Decidable (KeepsJob (fun _ => True) v a ∧ CounterPositive v a))

/-- Every slot is cleared or live, and `waitfg` is called with the pid of a
    process only. -/
theorem slots_well_formed {s : State}
    (h : shell.ReachableUnder (fun s l => SlotSafe s.view (s.act l)) s) :
    WellFormed s.table ∧ ∀ pid, s.main.waitedPid = some pid → 1 ≤ pid := by
  have hboth : JobPtr (fun _ => True) s.table s.main ∧ WellFormed s.table :=
    shell_abstraction.invariant_given Consistent reachable_consistent
      (fun v => JobPtr (fun _ => True) v.table v.main ∧ WellFormed v.table) SlotSafe
      ⟨.initial, fun _ => .inl ⟨rfl, rfl, rfl⟩⟩
      (fun _ _ _ hv hinv hok hm =>
        ⟨jobPtr_move trivial hv.registry hinv.1 hok.1 hm,
          wellFormed_move hv.registry hinv.1 hinv.2 hok.2 hm⟩) h
  exact ⟨hboth.2, hboth.1.waited⟩

/-- `fg` waits for a job that was in the background. -/
theorem slots_well_formed_run :
    ∃ s, shell.Reachable s ∧ s.main.waitedPid = some 2 ∧ WellFormed s.table ∧ 1 ≤ (2 : Pid) := by
  have hrun : (shell.runUnder (fun s l => SlotSafe s.view (s.act l)) initial
      (launchBg 2 ++ [.readLine "fg %1\n".toList, .run, .run, .run, .run])).any
        (fun s => decide (s.main.waitedPid = some 2)) = true := by
    decide +kernel
  obtain ⟨s, hs, hp⟩ := LTS.System.ReachableUnder.init.exists_run hrun
  have hwaited := of_decide_eq_true hp
  obtain ⟨hwf, hpid⟩ := slots_well_formed hs
  exact ⟨s, hs.reachable, hwaited, hwf, hpid 2 hwaited⟩

/-- `fg %1`, whose job ends after the lookup. -/
def endsAfterLookup : List Label :=
  launchBg 2 ++ [.readLine "fg %1\n".toList, .run, .child 2 .exit] ++ handle 2 5 ++
    [.run, .run, .run]

/-- The cleared slot becomes FG, and `waitfg` is called with 0. -/
theorem slot_reused :
    ∃ s, shell.run initial endsAfterLookup = some s ∧ ¬ WellFormed s.table ∧
      s.main = .waitfgTest .doBgfg 0 := by
  have hrun : (shell.run initial endsAfterLookup).any
      (fun s => decide (¬ ((s.table.jobs 0).Cleared ∨ (s.table.jobs 0).Live) ∧
        s.main = .waitfgTest .doBgfg 0)) = true := by
    decide +kernel
  obtain ⟨s, hs, hp⟩ := (Option.any_eq_true _ _).mp hrun
  obtain ⟨hslot, hmain⟩ := of_decide_eq_true hp
  exact ⟨s, hs, fun hwf => hslot (hwf 0), hmain⟩

end Shell
