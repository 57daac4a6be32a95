import CsappExperiments.ShellLab.View

/-! # Shell Lab: registration and reaping

    The correspondence between the entries of `jobs[]` and the children
    that have not been reaped, as an invariant of the abstract model:
    entries have distinct pids, and each belongs to such a child, except
    while `sigchld_handler` is about to delete it.

    `eval` forks and calls `addjob` with SIGCHLD blocked, so no report about
    the new child (`newborn`) can be processed before it is in the table.
-/

namespace Shell

/-! ## Section 1: Reports in progress -/

/-- The child whose end has been reported, and that is not deleted yet. -/
def ChldPc.dying : ChldPc → Option Pid
  | .reported how pid | .found how pid _ | .printed how pid _ | .masked how pid _ _ =>
    if how.terminal then some pid else none
  | _ => none

/-- The child whose stop has been reported, and that is not marked ST yet. -/
def ChldPc.stopping : ChldPc → Option Pid
  | .reported how pid | .found how pid _ | .printed how pid _ | .masked how pid _ _ =>
    if how.terminal then none else some pid
  | _ => none

/-- The entry that `sigchld_handler` has looked up for its report. -/
def ChldPc.target : ChldPc → Option (Pid × Slot)
  | .found _ pid (some i) | .printed _ pid i | .masked _ pid (some i) _ => some (pid, i)
  | _ => none

/-- `sigchld_handler` will call `waitpid` again. -/
def ChldPc.active : ChldPc → Bool
  | .return => false
  | _ => true

/-- The child that has been forked and not been passed to `addjob` yet. -/
def MainPc.newborn : MainPc → Option Pid
  | .evalForked _ _ pid _ | .evalAdd _ _ pid _ => some pid
  | _ => none

def dyingOf (chld : Option ChldPc) : Option Pid := chld.bind ChldPc.dying

def stoppingOf (chld : Option ChldPc) : Option Pid := chld.bind ChldPc.stopping

@[simp] theorem dyingOf_none : dyingOf none = none := rfl

@[simp] theorem dyingOf_some (pc : ChldPc) : dyingOf (some pc) = pc.dying := rfl

@[simp] theorem stoppingOf_none : stoppingOf none = none := rfl

@[simp] theorem stoppingOf_some (pc : ChldPc) : stoppingOf (some pc) = pc.stopping := rfl

theorem ChldLocal.dying {t : JobTable} {pc pc' : ChldPc} (h : ChldLocal t pc pc') :
    pc'.dying = pc.dying := by
  cases h <;> rfl

theorem ChldLocal.stopping {t : JobTable} {pc pc' : ChldPc} (h : ChldLocal t pc pc') :
    pc'.stopping = pc.stopping := by
  cases h <;> rfl

/-- A step of `sigchld_handler` keeps its entry, or has just looked it up. -/
theorem ChldLocal.target {t : JobTable} {pc pc' : ChldPc} (h : ChldLocal t pc pc')
    {pid : Pid} {i : Slot} (htarget : pc'.target = some (pid, i)) :
    pc.target = some (pid, i) ∨ getjobpid t pid = some i := by
  cases h with
  | lookup how pid' =>
    cases hfind : getjobpid t pid' with
    | none => rw [hfind] at htarget; cases htarget
    | some k =>
      rw [hfind] at htarget
      cases htarget
      exact .inr hfind
  | block | unblock => cases htarget
  | print | blockAll => exact .inl htarget

theorem MainLocal.newborn {t : JobTable} {m m' : MainPc} (h : MainLocal t m m') :
    m'.newborn = m.newborn := by
  cases h <;> rfl

@[simp] theorem wake_newborn (m : MainPc) : m.wake.newborn = m.newborn := by
  cases m <;> rfl

@[simp] theorem wake_critical (m : MainPc) : m.wake.critical = m.critical := by
  cases m <;> rfl

/-! ## Section 2: The invariant -/

/-- The invariant, on the parts of a view that it depends on. -/
structure Registry (t : JobTable) (procs : ProcTable) (main : MainPc) (chld : Option ChldPc) :
    Prop where
  pids : ∀ i, (t.jobs i).pid = 0 ∨ 1 < (t.jobs i).pid
  distinct : ∀ i k, (t.jobs i).pid ≠ 0 → (t.jobs i).pid = (t.jobs k).pid → i = k
  children : ∀ p, p ∈ procs → 1 < p
  owned : ∀ i, (t.jobs i).pid ≠ 0 → (t.jobs i).pid ∈ procs ∨ dyingOf chld = some (t.jobs i).pid
  gone : ∀ p, dyingOf chld = some p → 1 < p ∧ p ∉ procs
  stopped : ∀ p, stoppingOf chld = some p →
    p ∈ procs ∧ ∀ c, procs.lookup p = some c → c.status ≠ .running
  target : ∀ pc p i, chld = some pc → pc.target = some (p, i) → (t.jobs i).pid = p
  newborn : ∀ p, main.newborn = some p → p ∈ procs ∧ ∀ i, (t.jobs i).pid ≠ p
  critical : main.critical = true → chld = none

theorem registry_initial : Registry initjobs ∅ .top none where
  pids := fun _ => .inl rfl
  distinct := fun _ _ h => absurd rfl h
  children := fun p h => absurd h (AList.notMem_empty p)
  owned := fun _ h => absurd rfl h
  gone := by intro p h; cases h
  stopped := by intro p h; cases h
  target := by intro pc p i h; cases h
  newborn := by intro p h; cases h
  critical := by intro h; cases h

theorem critical_of_newborn {m : MainPc} {p : Pid} (h : m.newborn = some p) :
    m.critical = true := by
  cases m <;> first | rfl | cases h

namespace Registry

variable {t : JobTable} {procs : ProcTable} {main : MainPc} {chld : Option ChldPc}

/-- While `sigchld_handler` is active there is no newborn child. -/
theorem newborn_none (h : Registry t procs main chld) (hchld : chld ≠ none) :
    main.newborn = none := by
  cases hnew : main.newborn with
  | none => rfl
  | some p => exact absurd (h.critical (critical_of_newborn hnew)) hchld

/-! ### The moves keep the invariant -/

theorem child (h : Registry t procs main chld) {pid : Pid} {ev : ChildEvent} {c c' : Proc}
    (hc : procs.lookup pid = some c) (hev : ev.apply c = some c') :
    Registry t (setProc procs pid c') main chld := by
  refine { h with children := ?_, owned := ?_, gone := ?_, stopped := ?_, newborn := ?_ }
  · simpa using h.children
  · simpa using h.owned
  · simpa using h.gone
  · intro p hp
    obtain ⟨hmem, hrun⟩ := h.stopped p hp
    refine ⟨by simpa using hmem, ?_⟩
    intro d hd
    by_cases hpid : p = pid
    · subst hpid
      obtain rfl : c' = d := by simpa [hc] using hd
      rcases ChildEvent.apply_spec hev with ⟨_, hrunning, _⟩ | ⟨_, hrunning, _⟩
      · exact absurd hrunning (hrun c hc)
      · exact hrunning
    · exact hrun d (by simpa [hpid] using hd)
  · simpa using h.newborn

theorem wake (h : Registry t procs main chld) : Registry t procs main.wake chld :=
  { h with
    newborn := by simpa using h.newborn
    critical := by simpa using h.critical }

/-- `sigchld_handler` is at a point without a report. -/
theorem idle (h : Registry t procs main chld) {chld' : Option ChldPc}
    (hdying : dyingOf chld = none) (hdying' : dyingOf chld' = none)
    (hstopping' : stoppingOf chld' = none)
    (htarget' : ∀ pc, chld' = some pc → pc.target = none)
    (hcrit : main.critical = true → chld' = none) : Registry t procs main chld' where
  pids := h.pids
  distinct := h.distinct
  children := h.children
  owned := by
    intro i hi
    rcases h.owned i hi with hmem | hdy
    · exact .inl hmem
    · rw [hdying] at hdy; cases hdy
  gone := by intro p hp; rw [hdying'] at hp; cases hp
  stopped := by intro p hp; rw [hstopping'] at hp; cases hp
  target := by intro pc p i hpc ht; rw [htarget' pc hpc] at ht; cases ht
  newborn := h.newborn
  critical := hcrit

theorem reap (h : Registry t procs main (some .wait)) {how : Report} {pid : Pid} {c : Proc}
    (hc : procs.lookup pid = some c) :
    Registry t (reap procs pid how) main (some (.reported how pid)) := by
  have hmem : pid ∈ procs := AList.lookup_isSome.mp (by rw [hc]; rfl)
  have hnew : main.newborn = none := h.newborn_none (Option.some_ne_none _)
  refine
    { pids := h.pids
      distinct := h.distinct
      children := fun p hp => h.children p (mem_of_mem_reap hp)
      owned := ?_
      gone := ?_
      stopped := ?_
      target := ?_
      newborn := by intro p hp; rw [hnew] at hp; cases hp
      critical := fun hcrit => absurd (h.critical hcrit) (Option.some_ne_none _) }
  · intro i hi
    have hin : (t.jobs i).pid ∈ procs := (h.owned i hi).resolve_right (by intro hd; cases hd)
    by_cases hpid : (t.jobs i).pid = pid
    · -- the reported child: now about to be deleted, or still there
      cases hterm : how.terminal with
      | true => exact .inr (by simp [ChldPc.dying, hterm, hpid])
      | false =>
        left
        obtain rfl := Report.eq_stopped hterm
        rw [hpid, ← AList.lookup_isSome, lookup_reap_stopped, hc]
        rfl
    · exact .inl (mem_reap_ne hpid hin)
  · intro p hp
    have hterm : how.terminal = true := by
      by_contra hne
      simp [ChldPc.dying, hne] at hp
    obtain rfl : pid = p := by simpa [ChldPc.dying, hterm] using hp
    exact ⟨h.children pid hmem, notMem_reap hterm⟩
  · intro p hp
    have hterm : how.terminal = false := by
      by_contra hne
      simp [ChldPc.stopping, hne] at hp
    obtain rfl : pid = p := by simpa [ChldPc.stopping, hterm] using hp
    obtain rfl := Report.eq_stopped hterm
    refine ⟨?_, ?_⟩
    · rw [← AList.lookup_isSome, lookup_reap_stopped, hc]
      rfl
    · intro d hd
      obtain rfl : { c with status := .stopped true } = d := by
        simpa [lookup_reap_stopped, hc] using hd
      simp
  · intro pc p i hpc ht
    obtain rfl := Option.some.inj hpc
    cases ht

theorem handler {pc pc' : ChldPc} (h : Registry t procs main (some pc))
    (hloc : ChldLocal t pc pc') :
    Registry t procs main (some pc') where
  pids := h.pids
  distinct := h.distinct
  children := h.children
  owned := by simpa [hloc.dying] using h.owned
  gone := by simpa [hloc.dying] using h.gone
  stopped := by simpa [hloc.stopping] using h.stopped
  target := by
    rintro _ p i ⟨⟩ ht
    rcases hloc.target ht with hold | hfind
    · exact h.target pc p i rfl hold
    · exact (getjobpid_some hfind).2
  newborn := h.newborn
  critical := fun hcrit => absurd (h.critical hcrit) (Option.some_ne_none _)

/-- The job that is about to be deleted has been reaped. -/
theorem deleting {how : Report} {pid : Pid} {i : Option Slot} {prev : SigSet}
    (h : Registry t procs main chld) (hpc : chld = some (.masked how pid i prev))
    (hterm : how.terminal = true) : 1 < pid ∧ pid ∉ procs :=
  h.gone pid (by simp [hpc, ChldPc.dying, hterm])

/-- The job that is about to be marked ST has stopped. -/
theorem marking {pid : Pid} {i : Slot} {prev : SigSet} (h : Registry t procs main chld)
    (hpc : chld = some (.masked .stopped pid (some i) prev)) :
    (t.jobs i).pid = pid ∧ 1 < pid ∧ ∃ c, procs.lookup pid = some c ∧ c.status ≠ .running := by
  have hstopping : stoppingOf chld = some pid := by simp [hpc, ChldPc.stopping, Report.terminal]
  obtain ⟨hmem, hrun⟩ := h.stopped pid hstopping
  obtain ⟨c, hc⟩ := Option.isSome_iff_exists.mp (AList.lookup_isSome.mpr hmem)
  exact ⟨h.target _ pid i hpc rfl, h.children pid hmem, c, hc, hrun c hc⟩

theorem newborn_lt {p : Pid} (h : Registry t procs main chld) (hp : main.newborn = some p) :
    1 < p :=
  h.children p (h.newborn p hp).1

theorem delete {how : Report} {pid : Pid} {i : Option Slot} {prev : SigSet}
    (h : Registry t procs main (some (.masked how pid i prev))) (hterm : how.terminal = true) :
    Registry (deletejob t pid).2 procs main (some (.updated prev)) := by
  have hlt : 1 < pid := (h.deleting rfl hterm).1
  have hnew : main.newborn = none := h.newborn_none (Option.some_ne_none _)
  refine
    { pids := deletejob_forall (P := fun j => j.pid = 0 ∨ 1 < j.pid) (.inl rfl) h.pids pid
      distinct := fun _ _ hk hkl => deletejob_distinct h.distinct pid hk hkl
      children := h.children
      owned := ?_
      gone := by intro p hp; cases hp
      stopped := by intro p hp; cases hp
      target := by rintro _ p i ⟨⟩ ht; cases ht
      newborn := by intro p hp; rw [hnew] at hp; cases hp
      critical := fun hcrit => absurd (h.critical hcrit) (Option.some_ne_none _) }
  intro k hk
  have hsame := deletejob_live hk
  rw [hsame] at hk ⊢
  left
  rcases h.owned k hk with hmem | hdying
  · exact hmem
  · -- the entry of the reaped child is the one that has been cleared
    have hkpid : (t.jobs k).pid = pid := by
      have heq : some pid = some (t.jobs k).pid := by simpa [ChldPc.dying, hterm] using hdying
      exact (Option.some.inj heq).symm
    have hcleared : (deletejob t pid).2.jobs k = clearjob := by
      refine deletejob_self hlt.le hkpid ?_
      intro l hl
      exact (h.distinct k l hk (hkpid.trans hl.symm)).symm
    rw [← hsame, hcleared] at hk
    exact absurd rfl hk

/-- A store to the state of an entry changes no pid. -/
theorem setState (h : Registry t procs main chld) (i : Slot) (st : JobState) :
    Registry (t.setState i st) procs main chld where
  pids := by simpa using h.pids
  distinct := by simpa using h.distinct
  children := h.children
  owned := by simpa using h.owned
  gone := h.gone
  stopped := h.stopped
  target := by simpa using h.target
  newborn := by simpa using h.newborn
  critical := h.critical

/-- The main line moves while `sigchld_handler` is not active. -/
theorem mainStep (h : Registry t procs main none) {main' : MainPc}
    (hnew : main'.newborn = main.newborn) : Registry t procs main' none :=
  { h with
    newborn := by rw [hnew]; exact h.newborn
    critical := fun _ => rfl }

theorem fork (h : Registry t procs main none) {bg : Bool} {cmdline : CLib.CStr} {pid : Pid}
    {prev : SigSet} (hpid : 1 < pid) (hfresh : pid ∉ procs) :
    Registry t (procs.insert pid ⟨.running, false⟩) (.evalForked bg cmdline pid prev) none where
  pids := h.pids
  distinct := h.distinct
  children := by
    intro p hp
    rcases (AList.mem_insert procs).mp hp with rfl | hp
    · exact hpid
    · exact h.children p hp
  owned := by
    intro i hi
    exact .inl ((AList.mem_insert procs).mpr (.inr ((h.owned i hi).resolve_right (by simp))))
  gone := by intro p hp; cases hp
  stopped := by intro p hp; cases hp
  target := by intro pc p i hpc; cases hpc
  newborn := by
    -- an entry with the new pid would belong to a child, and the pid is fresh
    rintro p ⟨⟩
    refine ⟨(AList.mem_insert procs).mpr (.inl rfl), ?_⟩
    rintro i rfl
    have hne : (t.jobs i).pid ≠ 0 := by intro h0; rw [h0] at hpid; exact absurd hpid (by decide)
    exact hfresh ((h.owned i hne).resolve_right (by simp))
  critical := fun _ => rfl

theorem addjob {bg : Bool} {cmdline cmdline' : CLib.CStr} {pid : Pid} {prev : SigSet}
    {main' : MainPc} (h : Registry t procs (.evalAdd bg cmdline pid prev) none) (st : JobState)
    (hmain : main'.newborn = none) :
    Registry (addjob t pid st cmdline').2 procs main' none := by
  obtain ⟨hmem, hnone⟩ := h.newborn pid rfl
  have hpid : 1 < pid := h.children pid hmem
  -- each entry is kept, or it is the only one with the new pid
  have hframe : ∀ t', (∀ i, (t'.jobs i).pid = (t.jobs i).pid ∨
        ((t'.jobs i).pid = pid ∧ ∀ k, (t'.jobs k).pid = pid → k = i)) →
      Registry t' procs main' none := by
    intro t' hjobs
    refine
      { pids := ?_
        distinct := ?_
        children := h.children
        owned := ?_
        gone := by intro p hp; cases hp
        stopped := by intro p hp; cases hp
        target := by intro pc p i hpc; cases hpc
        newborn := by intro p hp; rw [hmain] at hp; cases hp
        critical := fun _ => rfl }
    · intro i
      rcases hjobs i with heq | ⟨heq, _⟩
      · rw [heq]; exact h.pids i
      · rw [heq]; exact .inr hpid
    · intro i k hi hik
      rcases hjobs i with hi' | ⟨hi', huniq⟩
      · rcases hjobs k with hk' | ⟨hk', _⟩
        · exact h.distinct i k (hi' ▸ hi) (by rw [← hi', ← hk', hik])
        · exact absurd (hi'.symm.trans (hik.trans hk')) (hnone i)
      · exact (huniq k (hik.symm.trans hi')).symm
    · intro i hi
      rcases hjobs i with heq | ⟨heq, _⟩
      · rw [heq] at hi ⊢
        exact h.owned i hi
      · rw [heq]; exact .inl hmem
  rcases addjob_cases hpid.le st cmdline' with ⟨_, heq⟩ | ⟨i, _, _, heq⟩
  · rw [heq]
    exact hframe t fun i => .inl rfl
  · rw [heq]
    refine hframe _ fun k => ?_
    by_cases hk : k = i
    · subst hk
      right
      refine ⟨by simp, ?_⟩
      intro q hq
      by_contra hne
      exact hnone q (by simpa [hne] using hq)
    · left
      simp [hk]

theorem cont (h : Registry t procs main none) (pid : Pid) {main' : MainPc}
    (hnew : main'.newborn = none) : Registry t (sigcont procs pid) main' none where
  pids := h.pids
  distinct := h.distinct
  children := by simpa using h.children
  owned := by simpa using h.owned
  gone := by intro p hp; cases hp
  stopped := by intro p hp; cases hp
  target := h.target
  newborn := by intro p hp; rw [hnew] at hp; cases hp
  critical := fun _ => rfl

end Registry

theorem registry_move {v v' : View} {a : Act} (h : Registry v.table v.procs v.main v.chld)
    (hm : Move v a v') : Registry v'.table v'.procs v'.main v'.chld := by
  cases hm with
  | quiet | raise | join | leave | crash | readFg | drop => exact h
  | child pid ev c c' hc hev => exact h.child hc hev
  | wake => exact h.wake
  | enter hnone hcrit =>
    -- the handler does not start between `fork` and `addjob`
    rw [hnone] at h
    exact h.wake.idle rfl rfl rfl (by rintro pc ⟨⟩; rfl) (by simp [hcrit])
  | reap how pid c hwait hc hrep =>
    rw [hwait] at h
    exact h.reap hc
  | drained hwait hall =>
    rw [hwait] at h
    exact h.idle rfl rfl rfl (by rintro pc ⟨⟩; rfl)
      fun hcrit => absurd (h.critical hcrit) (Option.some_ne_none _)
  | handler pc pc' hpc hloc =>
    rw [hpc] at h
    exact h.handler hloc
  | delete how pid i prev hpc hterm =>
    rw [hpc] at h
    exact h.delete hterm
  | stop pid i prev hpc =>
    rw [hpc] at h
    exact (h.setState i .ST).idle rfl rfl rfl (by rintro pc ⟨⟩; rfl)
      fun hcrit => absurd (h.critical hcrit) (Option.some_ne_none _)
  | chldReturn hpc =>
    rw [hpc] at h
    exact h.idle rfl rfl rfl (by intro pc hpc; cases hpc) fun _ => rfl
  | main m hnone hloc =>
    rw [hnone] at h ⊢
    exact h.mainStep hloc.newborn
  | fork bg cmdline prev pid hnone hmain hpid hfresh =>
    rw [hnone] at h ⊢
    exact h.fork hpid hfresh
  | addjob bg cmdline pid prev hnone hmain =>
    rw [hnone, hmain] at h
    rw [hnone]
    exact h.addjob _ (by cases bg <;> rfl)
  | cont fg i hnone hmain =>
    rw [hnone] at h ⊢
    exact h.cont _ rfl
  | store fg i hnone hmain =>
    rw [hnone, hmain] at h
    rw [hnone]
    exact (h.setState i _).mainStep (by cases fg <;> rfl)

theorem reachable_registry {s : State} (h : shell.Reachable s) :
    Registry s.table s.procs s.main (chldOf s.frames) :=
  shell_abstraction.invariant (fun v => Registry v.table v.procs v.main v.chld)
    (fun _ _ => True) registry_initial (fun _ _ _ hinv _ hm => registry_move hinv hm) h

/-! ## Section 3: Registration before reaping -/

/-- `sigchld_handler` updates the table for a report it is active for. -/
theorem chld_of_update {s : State} {l : Label} {how : Report} {pid : Pid}
    (h : s.act l = .update how pid) :
    ∃ i prev, chldOf s.frames = some (.masked how pid i prev) := by
  obtain ⟨rfl, f, fs, hf⟩ := run_of_act (by rw [h]; rfl)
  simp only [State.act, hf] at h
  split at h <;> cases h
  next i prev hpc =>
  refine ⟨i, prev, ?_⟩
  rw [hf, chldOf_cons, Frame.chld?, hpc]
  rfl

/-- While `sigchld_handler` is not active, the entries of `jobs[]` have
    distinct pids, and each belongs to a child whose end has not been
    reported. No child is deleted between its `fork` and its `addjob`. -/
theorem registration_before_reaping {s : State} (h : shell.Reachable s) :
    (chldOf s.frames = none →
      (∀ i k, (s.table.jobs i).pid ≠ 0 → (s.table.jobs i).pid = (s.table.jobs k).pid → i = k) ∧
      ∀ i, (s.table.jobs i).pid ≠ 0 → (s.table.jobs i).pid ∈ s.procs) ∧
    ∀ l how pid, s.act l = .update how pid → s.main.newborn ≠ some pid := by
  have hreg := reachable_registry h
  refine ⟨?_, ?_⟩
  · intro hnone
    refine ⟨hreg.distinct, ?_⟩
    intro i hi
    rcases hreg.owned i hi with hmem | hdying
    · exact hmem
    · rw [hnone] at hdying
      cases hdying
  · intro l how pid hact
    obtain ⟨i, prev, hchld⟩ := chld_of_update hact
    have hnew : s.main.newborn = none := hreg.newborn_none (by simp [hchld])
    simp [hnew]

/-- Two jobs in the background, the first of which has ended and been deleted. -/
theorem registration_before_reaping_run :
    ∃ s, shell.Reachable s ∧ (s.table.jobs 0).pid = 0 ∧ (s.table.jobs 1).pid ∈ s.procs := by
  have hrun : (shell.run initial
      (launchBg 2 ++ launchBg 3 ++ [.child 2 .exit] ++ handle 2 5)).any
        (fun s => decide ((s.table.jobs 0).pid = 0 ∧ (s.table.jobs 1).pid = 3 ∧
          chldOf s.frames = none)) = true := by
    decide +kernel
  obtain ⟨s, hs, hp⟩ := LTS.System.Reachable.init.exists_run hrun
  obtain ⟨hzero, hpid, hnone⟩ := of_decide_eq_true hp
  refine ⟨s, hs, hzero, ?_⟩
  exact ((registration_before_reaping hs).1 hnone).2 1 (by rw [hpid]; decide)

end Shell
