import CsappExperiments.ShellLab.Foreground

/-! # Shell Lab: reports that are under way

    A child whose change of status has not been reported keeps SIGCHLD
    pending or `sigchld_handler` active (`Reports`), so with neither, every
    stop has been reported. A reported stop is recorded as ST by the
    activation that received the report (`StopMarked`).

    `do_bgfg` stores FG or BG after `kill` has continued the job. When the
    job has stopped again by then, and its stop has been recorded, the store
    overwrites the record: no stop is lost in the runs without such a store
    (`no_stop_lost`), and one is lost in a run with it (`stop_lost`).
-/

open CLib

namespace Shell

/-! ## Section 1: Reportable children -/

/-- Every reportable child will be reported. -/
def Reports (procs : ProcTable) (chld : Option ChldPc) (sigchld : Bool) : Prop :=
  ∀ p c, procs.lookup p = some c → c.status.report ≠ none →
    sigchld = true ∨ ∃ pc, chld = some pc ∧ pc.active = true

theorem ChldLocal.active {t : JobTable} {pc pc' : ChldPc} (h : ChldLocal t pc pc') :
    pc'.active = true := by
  cases h <;> rfl

theorem lookup_sigcont {procs : ProcTable} {pid p : Pid} {c : Proc}
    (h : (sigcont procs pid).lookup p = some c) :
    ∃ d, procs.lookup p = some d ∧ (c = d ∨ c = d.cont) := by
  unfold sigcont at h
  rw [AList.lookup_mapVals] at h
  obtain ⟨d, hd, rfl⟩ := Option.map_eq_some_iff.mp h
  refine ⟨d, hd, ?_⟩
  split
  · exact .inr rfl
  · exact .inl rfl

theorem reports_move {v v' : View} {a : Act} (h : Reports v.procs v.chld v.sigchld)
    (hm : Move v a v') : Reports v'.procs v'.chld v'.sigchld := by
  cases hm with
  | quiet | join | leave | wake | crash | readFg | drop | main | addjob | store => exact h
  | raise => exact fun _ _ _ _ => .inl rfl
  | child pid ev c c' hc hev =>
    intro p d hd hrep
    by_cases hp : p = pid
    · subst hp
      obtain rfl : c' = d := by simpa [hc] using hd
      rcases ChildEvent.apply_spec hev with ⟨_, _, hrun⟩ | ⟨hnotify, _⟩
      -- a running child has nothing to report, any other event raises SIGCHLD
      · rw [hrun] at hrep
        exact absurd rfl hrep
      · exact .inl (by simp [hnotify])
    · rcases h p d (by simpa [hp] using hd) hrep with hsig | hact
      · exact .inl (by simp [hsig])
      · exact .inr hact
  | enter | reap | delete | stop => exact fun _ _ _ _ => .inr ⟨_, rfl, rfl⟩
  | drained hwait hall => exact fun p c hc hrep => absurd (hall p c hc) hrep
  | handler pc pc' hpc hloc => exact fun _ _ _ _ => .inr ⟨pc', rfl, hloc.active⟩
  | chldReturn hpc =>
    -- what has changed since the last waitpid has raised SIGCHLD again
    intro p c hc hrep
    rcases h p c hc hrep with hsig | ⟨pc, hpc', hact⟩
    · exact .inl hsig
    · rw [hpc] at hpc'
      obtain rfl := Option.some.inj hpc'
      cases hact
  | fork bg cmdline prev pid hnone hmain hpid hfresh =>
    intro p c hc hrep
    by_cases hp : p = pid
    · subst hp
      obtain rfl : (⟨.running, false⟩ : Proc) = c := by simpa using hc
      exact absurd rfl hrep
    · exact h p c (by rwa [AList.lookup_insert_ne hp] at hc) hrep
  | cont fg i hnone hmain =>
    intro p c hc hrep
    obtain ⟨d, hd, heq⟩ := lookup_sigcont hc
    refine h p d hd ?_
    rcases heq with rfl | rfl
    · exact hrep
    · exact fun hnone => hrep (cont_report hnone)

theorem reachable_reports {s : State} (h : shell.Reachable s) :
    Reports s.procs (chldOf s.frames) (Sig.SIGCHLD ∈ s.pending) :=
  shell_abstraction.invariant (fun v => Reports v.procs v.chld v.sigchld) (fun _ _ => True)
    (by intro p c hc; cases hc) (fun _ _ _ hinv _ hm => reports_move hinv hm) h

/-- With no SIGCHLD pending and its handler not active, nothing is left to report. -/
theorem nothing_to_report {s : State} (h : shell.Reachable s) (hchld : chldOf s.frames = none)
    (hsig : Sig.SIGCHLD ∉ s.pending) {p : Pid} {c : Proc} (hc : s.procs.lookup p = some c) :
    c.status.report = none := by
  by_contra hrep
  rcases reachable_reports h p c hc hrep with hpend | ⟨pc, hpc, _⟩
  · exact hsig (of_decide_eq_true hpend)
  · rw [hchld] at hpc
    cases hpc

/-! ## Section 2: Recorded stops -/

/-- An entry in a state of `S` has no process whose stop has been reported,
    except while `sigchld_handler` is about to record it. -/
structure StopMarked (S : JobState → Prop) (t : JobTable) (procs : ProcTable) (main : MainPc)
    (chld : Option ChldPc) : Prop where
  marked : ∀ i, S (t.jobs i).state → ∀ c, procs.lookup (t.jobs i).pid = some c →
    c.status = .stopped true → stoppingOf chld = some (t.jobs i).pid
  newborn : ∀ p c, main.newborn = some p → procs.lookup p = some c → c.status ≠ .stopped true

/-- The condition: `do_bgfg` does not store a state of `S` for a job whose
    stop has been reported. -/
def StoreFollowsCont (S : JobState → Prop) (v : View) : Act → Prop
  | .store fg i => S (if fg then .FG else .BG) →
      (v.procs.lookup (v.table.jobs i).pid).map Proc.status ≠ some (.stopped true)
  | _ => True

instance (S : JobState → Prop) [DecidablePred S] (v : View) :
    ∀ a, Decidable (StoreFollowsCont S v a)
  | .store fg i => inferInstanceAs (Decidable (S (if fg then .FG else .BG) →
      (v.procs.lookup (v.table.jobs i).pid).map Proc.status ≠ some (.stopped true)))
  | .reap _ _ | .update _ _ | .addjob _ _ | .readFg | .kill _ _ | .leave _ | .other =>
    inferInstanceAs (Decidable True)

/-- An event does not make a stop reported. -/
theorem ChildEvent.apply_ne_reported {ev : ChildEvent} {c c' : Proc} (h : ev.apply c = some c') :
    c'.status ≠ .stopped true := by
  rcases ChildEvent.apply_spec h with ⟨_, _, hrun⟩ | ⟨_, _, hne⟩
  · simp [hrun]
  · exact hne

namespace StopMarked

variable {S : JobState → Prop} {t t' : JobTable} {procs procs' : ProcTable} {main main' : MainPc}
  {chld chld' : Option ChldPc}

theorem initial : StopMarked S initjobs ∅ .top none where
  marked := by intro i _ c hc; cases hc
  newborn := by intro p c hp; cases hp

/-- The reported stops are among the ones there were. -/
theorem procs_sub (h : StopMarked S t procs main chld)
    (hsub : ∀ p c, procs'.lookup p = some c → c.status = .stopped true →
      ∃ d, procs.lookup p = some d ∧ d.status = .stopped true) :
    StopMarked S t procs' main chld where
  marked := by
    intro i hi c hc hst
    obtain ⟨d, hd, hst'⟩ := hsub _ c hc hst
    exact h.marked i hi d hd hst'
  newborn := by
    intro p c hp hc hst
    obtain ⟨d, hd, hst'⟩ := hsub p c hc hst
    exact h.newborn p d hp hd hst'

/-- Every entry in a state of `S` was there before. -/
theorem table_sub (h : StopMarked S t procs main chld)
    (hsub : ∀ i, S (t'.jobs i).state → (t'.jobs i).pid ∈ procs → t'.jobs i = t.jobs i)
    (hnew : ∀ p, main'.newborn = some p → main.newborn = some p) :
    StopMarked S t' procs main' chld where
  marked := by
    intro i hi c hc hst
    have hmem : (t'.jobs i).pid ∈ procs := AList.lookup_isSome.mp (by rw [hc]; rfl)
    have heq := hsub i hi hmem
    rw [heq] at hi hc ⊢
    exact h.marked i hi c hc hst
  newborn := fun p c hp hc => h.newborn p c (hnew p hp) hc

/-- The point of `sigchld_handler` changes, but not the stop it records. -/
theorem chld_eq (h : StopMarked S t procs main chld) (heq : stoppingOf chld' = stoppingOf chld) :
    StopMarked S t procs main chld' :=
  { h with marked := by rw [heq]; exact h.marked }

theorem reap (h : StopMarked S t procs main (some .wait)) (hnew : main.newborn = none)
    (how : Report) (pid : Pid) :
    StopMarked S t (reap procs pid how) main (some (.reported how pid)) where
  marked := by
    -- before the report no stop was about to be recorded
    intro i hi c hc hst
    by_cases hpid : (t.jobs i).pid = pid
    · cases how with
      | stopped => simp [ChldPc.stopping, Report.terminal, hpid]
      | exited | signaled =>
        have hmem : (t.jobs i).pid ∈ Shell.reap procs pid _ :=
          AList.lookup_isSome.mp (by rw [hc]; rfl)
        rw [hpid] at hmem
        exact absurd hmem (notMem_reap rfl)
    · rw [lookup_reap_ne procs how hpid] at hc
      cases h.marked i hi c hc hst
  newborn := by intro p c hp; rw [hnew] at hp; cases hp

/-- The stop that is under way is recorded. -/
theorem stop {pid : Pid} {i : Slot} {prev : SigSet}
    (h : StopMarked S t procs main (some (.masked .stopped pid (some i) prev)))
    (hreg : Registry t procs main (some (.masked .stopped pid (some i) prev))) (hST : ¬ S .ST) :
    StopMarked S (t.setState i .ST) procs main chld' where
  marked := by
    intro k hk c hc hst
    have hki : k ≠ i := by
      rintro rfl
      rw [setState_state_self] at hk
      exact hST hk
    rw [setState_ne t .ST hki] at hk hc
    -- the only stop under way is the one of entry `i`
    obtain ⟨hi, hlt, _⟩ := hreg.marking rfl
    have hother : pid = (t.jobs k).pid := by
      simpa [ChldPc.stopping, Report.terminal] using h.marked k hk c hc hst
    have hne : (t.jobs k).pid ≠ 0 := by
      rw [← hother]
      rintro rfl
      exact absurd hlt (by decide)
    exact absurd (hreg.distinct k i hne (hother.symm.trans hi.symm)) hki
  newborn := h.newborn

/-- A new child is running. -/
theorem fork {bg : Bool} {cmdline : CStr} {pid : Pid} {prev : SigSet}
    (h : StopMarked S t procs main chld) :
    StopMarked S t (procs.insert pid ⟨.running, false⟩) (.evalForked bg cmdline pid prev) chld := by
  have hrunning : ∀ c, (procs.insert pid ⟨.running, false⟩).lookup pid = some c →
      c.status ≠ .stopped true := by
    intro c hc
    obtain rfl : (⟨.running, false⟩ : Proc) = c := by simpa using hc
    simp
  refine ⟨?_, ?_⟩
  · intro i hi c hc hst
    by_cases hp : (t.jobs i).pid = pid
    · rw [hp] at hc
      exact absurd hst (hrunning c hc)
    · exact h.marked i hi c (by rwa [AList.lookup_insert_ne hp] at hc) hst
  · rintro p c ⟨⟩ hc
    exact hrunning c hc

/-- SIGCONT leaves no process that it reaches stopped. -/
theorem cont (h : StopMarked S t procs main chld) (pid : Pid) (hnew : main'.newborn = none) :
    StopMarked S t (sigcont procs pid) main' chld := by
  have hsub : StopMarked S t (sigcont procs pid) main chld := by
    refine h.procs_sub ?_
    intro p c hc hst
    obtain ⟨d, hd, heq⟩ := lookup_sigcont hc
    rcases heq with rfl | rfl
    · exact ⟨c, hd, hst⟩
    · exfalso
      obtain ⟨status, grouped⟩ := d
      cases status <;> cases hst
  exact { hsub with newborn := by intro p c hp; rw [hnew] at hp; cases hp }

theorem addjob {bg : Bool} {cmdline : CStr} {pid : Pid} {prev : SigSet}
    (h : StopMarked S t procs (.evalAdd bg cmdline pid prev) chld) (hpid : 1 ≤ pid) (st : JobState)
    (hnew : main'.newborn = none) : StopMarked S (addjob t pid st cmdline).2 procs main' chld where
  marked := by
    intro i hi c hc hst
    rcases addjob_cases hpid st cmdline with ⟨_, heq⟩ | ⟨k, _, _, heq⟩
    · rw [heq] at hi hc ⊢
      exact h.marked i hi c hc hst
    · by_cases hik : i = k
      · -- the new job has not stopped yet, as far as the shell has been told
        have hpid' : ((Shell.addjob t pid st cmdline).2.jobs i).pid = pid := by
          rw [heq, hik]
          simp
        rw [hpid'] at hc
        exact absurd hst (h.newborn pid c rfl hc)
      · have hjob : (Shell.addjob t pid st cmdline).2.jobs i = t.jobs i := by
          rw [heq]
          exact setJob_ne t _ hik
        rw [hjob] at hi hc ⊢
        exact h.marked i hi c hc hst
  newborn := by intro p c hp; rw [hnew] at hp; cases hp

theorem store {st : JobState} {i : Slot} (h : StopMarked S t procs main chld)
    (hok : S st → (procs.lookup (t.jobs i).pid).map Proc.status ≠ some (.stopped true))
    (hnew : main'.newborn = none) : StopMarked S (t.setState i st) procs main' chld where
  marked := by
    intro k hk c hc hst
    by_cases hki : k = i
    · subst hki
      rw [setState_state_self] at hk
      rw [setState_pid] at hc
      exact absurd (by rw [hc, Option.map_some, hst]) (hok hk)
    · rw [setState_ne t st hki] at hk hc ⊢
      exact h.marked k hk c hc hst
  newborn := by intro p c hp; rw [hnew] at hp; cases hp

end StopMarked

theorem stopMarked_move {S : JobState → Prop} (hST : ¬ S .ST) {v v' : View} {a : Act}
    (hreg : Registry v.table v.procs v.main v.chld)
    (h : StopMarked S v.table v.procs v.main v.chld) (hok : StoreFollowsCont S v a)
    (hm : Move v a v') : StopMarked S v'.table v'.procs v'.main v'.chld := by
  cases hm with
  | quiet | raise | join | leave | crash | readFg | drop => exact h
  | child pid ev c c' hc hev =>
    refine h.procs_sub ?_
    intro p d hd hst
    by_cases hp : p = pid
    · subst hp
      obtain rfl : c' = d := by simpa [hc] using hd
      exact absurd hst (ChildEvent.apply_ne_reported hev)
    · exact ⟨d, by simpa [hp] using hd, hst⟩
  | wake => exact { h with newborn := by simpa using h.newborn }
  | enter hnone hcrit =>
    rw [hnone] at h
    have hsame : StopMarked S v.table v.procs v.main (some .wait) := h.chld_eq rfl
    exact { hsame with newborn := by simpa using h.newborn }
  | reap how pid c hwait hc hrep =>
    rw [hwait] at h hreg
    exact h.reap (hreg.newborn_none (Option.some_ne_none _)) how pid
  | drained hwait hall =>
    rw [hwait] at h
    exact h.chld_eq rfl
  | handler pc pc' hpc hloc =>
    rw [hpc] at h
    exact h.chld_eq hloc.stopping
  | delete how pid i prev hpc hterm =>
    rw [hpc] at h
    -- the report was of a termination, so no stop is waiting to be recorded
    have hsame : StopMarked S v.table v.procs v.main (some (.updated prev)) :=
      h.chld_eq (by simp [ChldPc.stopping, hterm])
    refine hsame.table_sub ?_ fun _ hp => hp
    intro k _ hmem
    refine deletejob_live ?_
    intro hzero
    rw [hzero] at hmem
    exact absurd (hreg.children 0 hmem) (by decide)
  | stop pid i prev hpc =>
    rw [hpc] at h hreg
    exact h.stop hreg hST
  | chldReturn hpc =>
    rw [hpc] at h
    exact h.chld_eq rfl
  | main m hnone hloc =>
    exact h.table_sub (fun _ _ _ => rfl) fun p hp => by rwa [hloc.newborn] at hp
  | fork bg cmdline prev pid hnone hmain hpid hfresh => exact h.fork
  | addjob bg cmdline pid prev hnone hmain =>
    have hpid : 1 < pid := hreg.newborn_lt (by rw [hmain]; rfl)
    rw [hmain] at h
    exact h.addjob hpid.le _ (by cases bg <;> rfl)
  | cont fg i hnone hmain => exact h.cont _ rfl
  | store fg i hnone hmain =>
    exact h.store hok (by cases fg <;> rfl)

theorem reachable_stopMarked {S : JobState → Prop} (hST : ¬ S .ST) {s : State}
    (h : shell.ReachableUnder (fun s l => StoreFollowsCont S s.view (s.act l)) s) :
    StopMarked S s.table s.procs s.main (chldOf s.frames) :=
  shell_abstraction.invariant_given Consistent reachable_consistent
    (fun v => StopMarked S v.table v.procs v.main v.chld) (StoreFollowsCont S) .initial
    (fun _ _ _ hv hinv hok hm => stopMarked_move hST hv.registry hinv hok hm) h

/-! ## Section 3: No stop is lost -/

/-- When no report is under way, and outside `do_bgfg`'s window between
    `kill` and the store, a stopped job is recorded as ST. -/
def StopsRecorded (s : State) : Prop :=
  chldOf s.frames = none → Sig.SIGCHLD ∉ s.pending → (∀ fg i, s.main ≠ .bgfgStore fg i) →
    ∀ i c r, (s.table.jobs i).pid ≠ 0 → s.procs.lookup (s.table.jobs i).pid = some c →
      c.status = .stopped r → (s.table.jobs i).state = .ST

/-- In the runs in which `do_bgfg` stores no state over a reported stop. -/
theorem no_stop_lost {s : State}
    (h : shell.ReachableUnder (fun s l => StoreFollowsCont (· ≠ .ST) s.view (s.act l)) s) :
    StopsRecorded s := by
  intro hchld hsig _ i c r _ hc hst
  have hreported : c.status = .stopped true := by
    have hrep := nothing_to_report h.reachable hchld hsig hc
    rw [hst] at hrep ⊢
    cases r with
    | true => rfl
    | false => cases hrep
  by_contra hne
  have hmarked := (reachable_stopMarked (S := (· ≠ .ST)) (fun h => h rfl) h).marked i hne c
      hc hreported
  rw [hchld] at hmarked
  cases hmarked

/-- `fg` of a stopped job, which then stops again. -/
theorem no_stop_lost_run :
    ∃ s, shell.Reachable s ∧ s.procs.lookup 2 = some ⟨.stopped true, true⟩ ∧ StopsRecorded s := by
  have hrun : (shell.runUnder (fun s l => StoreFollowsCont (· ≠ .ST) s.view (s.act l)) initial
      (launchBg 2 ++ [.child 2 .setpgid, .child 2 .stop] ++ handle 2 7 ++
        [.readLine "fg %1\n".toList, .run, .run, .run, .child 2 .stop] ++ handle 2 7)).any
        (fun s => decide (s.procs.lookup 2 = some ⟨.stopped true, true⟩)) = true := by
    decide +kernel
  obtain ⟨s, hs, hp⟩ := LTS.System.ReachableUnder.init.exists_run hrun
  exact ⟨s, hs.reachable, of_decide_eq_true hp, no_stop_lost hs⟩

/-- `bg` of a stopped job, which stops again between `kill` and the store. -/
def stopsAgain : List Label :=
  launchBg 2 ++ [.child 2 .setpgid, .child 2 .stop] ++ handle 2 7 ++
    [.readLine "bg %1\n".toList, .run, .run, .child 2 .stop] ++ handle 2 7 ++ [.run]

/-- The store overwrites the record of the second stop. -/
theorem stop_lost : ∃ s, shell.run initial stopsAgain = some s ∧ ¬ StopsRecorded s := by
  have hrun : (shell.run initial stopsAgain).any
      (fun s => decide (s.main = .bgfgPrint 0 ∧ chldOf s.frames = none ∧
        Sig.SIGCHLD ∉ s.pending ∧ (s.table.jobs 0).pid = 2 ∧ (s.table.jobs 0).state = .BG ∧
        s.procs.lookup 2 = some ⟨.stopped true, true⟩)) = true := by
    decide +kernel
  obtain ⟨s, hs, hp⟩ := (Option.any_eq_true _ _).mp hrun
  obtain ⟨hmain, hchld, hsig, hpid, hst, hc⟩ := of_decide_eq_true hp
  refine ⟨s, hs, ?_⟩
  intro hrec
  have hST := hrec hchld hsig (by simp [hmain]) 0 _ true (by rw [hpid]; decide)
    (by rw [hpid]; exact hc) rfl
  rw [hst] at hST
  cases hST

end Shell
