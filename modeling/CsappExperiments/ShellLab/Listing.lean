import CsappExperiments.Scanf
import CsappExperiments.ShellLab.FullTable
import CsappExperiments.ShellLab.JobSlots
import CsappExperiments.ShellLab.LifeCycle
import CsappExperiments.ShellLab.Settling

/-! # Shell Lab: the job list at rest

    `jobs[]` is the shell's own record of its children; the kernel has another
    one. The two differ while a report is under way, and also for good once
    one of three things has happened: `addjob` has refused a job, `do_bgfg` has
    used a slot whose job was deleted, or it has stored a state over the record
    of a stop.

    In the runs without these (`RecordKept`) the records agree whenever the shell
    is at rest: every child has exactly one entry, every entry a child, and an
    entry is in state ST exactly when its child is stopped (`jobs_at_rest`). What
    `listjobs` prints at the prompt is then what the kernel would say.
-/

open CLib

namespace Shell

/-! ## Section 1: listjobs -/

/-- What `listjobs` prints for the state of entry `i`. -/
def stateText (i : Slot) : JobState → CStr
  | .BG => "Running ".toList
  | .FG => "Foreground ".toList
  | .ST => "Stopped ".toList
  | .UNDEF => "listjobs: Internal error: job[".toList ++ natText i ++ "].state=0 ".toList

/-- An entry, with the text `state` for its state. -/
def listLine (j : Job) (state : CStr) : CStr :=
  '[' :: intText j.jid ++ "] (".toList ++ intText j.pid ++ ") ".toList ++ state ++ j.cmdline

/-- Print the job list. -/
def listjobs (t : JobTable) : CStr :=
  (List.finRange MAXJOBS).flatMap fun i =>
    if (t.jobs i).pid ≠ 0 then listLine (t.jobs i) (stateText i (t.jobs i).state) else []

/-- The same list, by what the kernel knows of the children. -/
def listChildren (t : JobTable) (procs : ProcTable) : CStr :=
  (List.finRange MAXJOBS).flatMap fun i =>
    match procs.lookup (t.jobs i).pid with
    | none => []
    | some c =>
      listLine (t.jobs i) (if c.status = .running then "Running ".toList else "Stopped ".toList)

/-! ## Section 2: What an entry in state ST says -/

/-- An entry in state ST has no running child, except between `do_bgfg`'s
    `kill` and its store. -/
def Shown (t : JobTable) (procs : ProcTable) (main : MainPc) : Prop :=
  ∀ i, (t.jobs i).state = .ST → ∀ c, procs.lookup (t.jobs i).pid = some c → c.status = .running →
    ∃ fg, main = .bgfgStore fg i

namespace Shown

variable {t t' : JobTable} {procs procs' : ProcTable} {main main' : MainPc}

theorem initial : Shown initjobs ∅ .top := by
  intro i hi
  cases hi

/-- The running children are among the ones there were. -/
theorem procs_sub (h : Shown t procs main)
    (hsub : ∀ p c, procs'.lookup p = some c → c.status = .running →
      ∃ d, procs.lookup p = some d ∧ d.status = .running) :
    Shown t procs' main := by
  intro i hi c hc hrun
  obtain ⟨d, hd, hrun'⟩ := hsub _ c hc hrun
  exact h i hi d hd hrun'

/-- Every entry in state ST was there before. -/
theorem table_sub (h : Shown t procs main)
    (hsub : ∀ i, (t'.jobs i).state = .ST → t'.jobs i = t.jobs i) :
    Shown t' procs main := by
  intro i hi
  have hsame := hsub i hi
  rw [hsame] at hi ⊢
  exact h i hi

/-- Away from the store, no entry in state ST has a running child. -/
theorem strict (h : Shown t procs main) (hmain : ∀ fg i, main ≠ .bgfgStore fg i) {i : Slot}
    (hi : (t.jobs i).state = .ST) {c : Proc} (hc : procs.lookup (t.jobs i).pid = some c) :
    c.status ≠ .running := by
  intro hrun
  obtain ⟨fg, heq⟩ := h i hi c hc hrun
  exact hmain fg i heq

/-- Away from the store, the point of the main line does not matter. -/
theorem mainLine (h : Shown t procs main) (hmain : ∀ fg i, main ≠ .bgfgStore fg i) :
    Shown t procs main' :=
  fun _ hi _ hc hrun => absurd hrun (h.strict hmain hi hc)

theorem delete (h : Shown t procs main) (pid : Pid) : Shown (deletejob t pid).2 procs main := by
  refine h.table_sub fun i hi => (deletejob_jobs t pid i).resolve_right fun hcleared => ?_
  rw [hcleared.2] at hi
  cases hi

/-- `sigchld_handler` stores ST for a child that has stopped. -/
theorem stop (h : Shown t procs main) {i : Slot} {c : Proc}
    (hc : procs.lookup (t.jobs i).pid = some c) (hstopped : c.status ≠ .running) :
    Shown (t.setState i .ST) procs main := by
  intro k hk d hd hrun
  by_cases hki : k = i
  · subst hki
    rw [setState_pid, hc] at hd
    obtain rfl := Option.some.inj hd
    exact absurd hrun hstopped
  · rw [setState_ne t .ST hki] at hk hd
    exact h k hk d hd hrun

/-- The new child has no entry yet. -/
theorem fork (h : Shown t procs main) (hmain : ∀ fg i, main ≠ .bgfgStore fg i) {pid : Pid}
    (hnew : ∀ i, (t.jobs i).pid ≠ pid) (c : Proc) : Shown t (procs.insert pid c) main' := by
  intro i hi d hd hrun
  rw [AList.lookup_insert_ne (hnew i)] at hd
  exact absurd hrun (h.strict hmain hi hd)

theorem addjob (h : Shown t procs main) {pid : Pid} (hpid : 1 ≤ pid) {st : JobState}
    (hst : st ≠ .ST) (cmdline : CStr) :
    Shown (addjob t pid st cmdline).2 procs main := by
  obtain ⟨_, heq⟩ | ⟨k, _, _, heq⟩ := addjob_cases (t := t) hpid st cmdline
  · rw [heq]
    exact h
  · rw [heq]
    refine h.table_sub fun i hi => setJob_ne t _ ?_
    rintro rfl
    exact hst (by simpa using hi)

/-- SIGCONT reaches the child of the entry that `do_bgfg` stores next. -/
theorem cont {fg : Bool} {i : Slot} (h : Shown t procs (.bgfgKill fg i)) (hi : (t.jobs i).pid ≠ 0)
    (hdistinct : ∀ k, (t.jobs i).pid = (t.jobs k).pid → i = k) :
    Shown t (sigcont procs (t.jobs i).pid) (.bgfgStore fg i) := by
  intro k hk c hc hrun
  refine ⟨fg, ?_⟩
  by_cases hki : (t.jobs i).pid = (t.jobs k).pid
  · rw [hdistinct k hki]
  · -- the other children are as before
    have hlookup : (sigcont procs (t.jobs i).pid).lookup (t.jobs k).pid =
        procs.lookup (t.jobs k).pid := by
      rw [sigcont, AList.lookup_mapVals]
      cases procs.lookup (t.jobs k).pid with
      | none => rfl
      | some d => simp [inGroup, hi, Ne.symm hki]
    rw [hlookup] at hc
    exact absurd hrun (h.strict (by intro fg' i' heq; cases heq) hk hc)

/-- The store is for a state other than ST. -/
theorem store {fg : Bool} {i : Slot} (h : Shown t procs (.bgfgStore fg i)) {st : JobState}
    (hst : st ≠ .ST) :
    Shown (t.setState i st) procs main' := by
  intro k hk c hc hrun
  by_cases hki : k = i
  · subst hki
    rw [setState_state_self] at hk
    exact absurd hk hst
  · rw [setState_ne t st hki] at hk hc
    obtain ⟨fg', heq⟩ := h k hk c hc hrun
    cases heq
    exact absurd rfl hki

end Shown

theorem shown_move {v v' : View} {a : Act} (hreg : Registry v.table v.procs v.main v.chld)
    (hptr : JobPtr (fun _ => True) v.table v.main) (h : Shown v.table v.procs v.main)
    (hm : Move v a v') :
    Shown v'.table v'.procs v'.main := by
  cases hm with
  | quiet | raise | join | leave | drained | handler | crash | chldReturn | readFg | drop => exact h
  | child pid ev c c' hc hev =>
    refine h.procs_sub fun p d hd hrun => ?_
    by_cases hp : p = pid
    · subst hp
      obtain rfl : c' = d := by simpa [hc] using hd
      obtain ⟨_, hbefore, _⟩ | ⟨_, hne, _⟩ := ChildEvent.apply_spec hev
      · exact ⟨c, hc, hbefore⟩
      · exact absurd hrun hne
    · exact ⟨d, by simpa [hp] using hd, hrun⟩
  | wake | enter =>
    intro i hi c hc hrun
    obtain ⟨fg, heq⟩ := h i hi c hc hrun
    exact ⟨fg, by rw [heq]; rfl⟩
  | reap how pid c hwait hc hrep =>
    refine h.procs_sub fun p d hd hrun => ?_
    by_cases hp : p = pid
    · subst hp
      cases how with
      | exited | signaled =>
        exact absurd (AList.lookup_isSome.mp (by rw [hd]; rfl)) (notMem_reap rfl)
      | stopped =>
        rw [lookup_reap_stopped, hc] at hd
        obtain rfl := Option.some.inj hd
        cases hrun
    · exact ⟨d, by rwa [lookup_reap_ne _ how hp] at hd, hrun⟩
  | delete how pid => exact h.delete pid
  | stop pid i prev hpc =>
    obtain ⟨hi, _, c, hc, hstopped⟩ := hreg.marking hpc
    exact h.stop (by rw [hi]; exact hc) hstopped
  | main m hnone hloc => exact h.mainLine fun fg i heq => by rw [heq] at hloc; cases hloc
  | fork bg cmdline prev pid hnone hmain hpid hfresh =>
    refine h.fork (fun fg i heq => by rw [hmain] at heq; cases heq) (fun i hi => ?_) _
    -- an entry of the new pid would belong to another child
    have hused : (v.table.jobs i).pid ≠ 0 := by
      rw [hi]
      rintro rfl
      exact absurd hpid (by decide)
    cases hreg.owned i hused with
    | inl hmem => exact hfresh (hi ▸ hmem)
    | inr hdying =>
      rw [hnone] at hdying
      cases hdying
  | addjob bg cmdline pid prev hnone hmain =>
    have hpid : 1 < pid := hreg.newborn_lt (by rw [hmain]; rfl)
    refine (h.mainLine fun fg i heq => ?_).addjob hpid.le (by cases bg <;> decide) cmdline
    rw [hmain] at heq
    cases heq
  | cont fg i hnone hmain =>
    rw [hmain] at h hptr
    have hi : (v.table.jobs i).pid ≠ 0 := hptr.held (fg, i) rfl trivial
    exact h.cont hi fun k => hreg.distinct i k hi
  | store fg i hnone hmain =>
    rw [hmain] at h
    exact h.store (by cases fg <;> decide)

/-! ## Section 3: The records agree -/

/-- The condition on the steps of a run: no job is refused, `do_bgfg`'s job is
    not deleted under its pointer, and no store is over the record of a stop. -/
def RecordKept (v : View) (a : Act) : Prop :=
  Accepts v a ∧ KeepsJob (fun _ => True) v a ∧ StoreFollowsCont (· ≠ .ST) v a

instance (v : View) (a : Act) : Decidable (RecordKept v a) :=
  inferInstanceAs (Decidable (_ ∧ _ ∧ _))

theorem reachable_entered {s : State}
    (h : shell.ReachableUnder (fun s l => Accepts s.view (s.act l)) s) :
    Entered s.table s.procs s.main (chldOf s.frames) s.view.crashed :=
  shell_abstraction.invariant_given Consistent reachable_consistent
    (fun v => Entered v.table v.procs v.main v.chld v.crashed) Accepts entered_initial
    (fun _ _ _ hv hinv hok hm => entered_move hv.registry hinv hok hm) h

theorem reachable_shown {s : State}
    (h : shell.ReachableUnder (fun s l => KeepsJob (fun _ => True) s.view (s.act l)) s) :
    Shown s.table s.procs s.main := by
  have hboth : JobPtr (fun _ => True) s.table s.main ∧ Shown s.table s.procs s.main :=
    shell_abstraction.invariant_given Consistent reachable_consistent
      (fun v => JobPtr (fun _ => True) v.table v.main ∧ Shown v.table v.procs v.main)
        (KeepsJob fun _ => True)
      ⟨.initial, .initial⟩
      (fun _ _ _ hv hinv hok hm =>
        ⟨jobPtr_move trivial hv.registry hinv.1 hok hm, shown_move hv.registry hinv.1 hinv.2 hm⟩) h
  exact hboth.2

/-- The child of an entry in use, at rest. -/
theorem Resting.child {s : State} (hr : shell.Reachable s) (h : Resting s) {i : Slot}
    (hi : (s.table.jobs i).pid ≠ 0) :
    ∃ c, s.procs.lookup (s.table.jobs i).pid = some c ∧
      (c.status = .running ∨ c.status = .stopped true) := by
  have hmem : (s.table.jobs i).pid ∈ s.procs := by
    refine ((reachable_registry hr).owned i hi).resolve_right ?_
    rw [h.frames]
    simp
  obtain ⟨c, hc⟩ := Option.isSome_iff_exists.mp (AList.lookup_isSome.mpr hmem)
  exact ⟨c, hc, h.children hr hc⟩

/-- At rest, the state of an entry in use tells whether its child is stopped. -/
theorem state_at_rest {s : State}
    (h : shell.ReachableUnder (fun s l => RecordKept s.view (s.act l)) s) (hrest : Resting s)
    {i : Slot} {c : Proc} (hc : s.procs.lookup (s.table.jobs i).pid = some c) :
    (s.table.jobs i).state = .ST ↔ c.status = .stopped true := by
  have hshown : Shown s.table s.procs s.main := reachable_shown (h.mono fun _ _ hok => hok.2.1)
  have hmarked : StopMarked (· ≠ .ST) s.table s.procs s.main (chldOf s.frames) :=
    reachable_stopMarked (fun h => h rfl) (h.mono fun _ _ hok => hok.2.2)
  have hmain : ∀ fg k, s.main ≠ .bgfgStore fg k := by
    intro fg k heq
    have hidle := hrest.main
    rw [heq] at hidle
    exact hidle
  constructor
  · intro hST
    exact (hrest.children h.reachable hc).resolve_left (hshown.strict hmain hST hc)
  · intro hstopped
    by_contra hne
    -- no report is under way that could record the stop
    have hunder := hmarked.marked i hne c hc hstopped
    rw [hrest.frames] at hunder
    cases hunder

theorem stateText_eq (i : Slot) {st : JobState} {status : Status} (hdef : st ≠ .UNDEF)
    (hfg : st ≠ .FG) (hstatus : status = .running ∨ status = .stopped true)
    (hiff : st = .ST ↔ status = .stopped true) :
    stateText i st = if status = .running then "Running ".toList else "Stopped ".toList := by
  cases st with
  | UNDEF => exact (hdef rfl).elim
  | FG => exact (hfg rfl).elim
  | ST =>
    obtain rfl := hiff.mp rfl
    exact (if_neg (by decide)).symm
  | BG =>
    obtain rfl := hstatus.resolve_right fun hstopped => by cases hiff.mpr hstopped
    exact (if_pos rfl).symm

theorem listjobs_eq {s : State}
    (h : shell.ReachableUnder (fun s l => RecordKept s.view (s.act l)) s) (hrest : Resting s)
    (hmain : s.main = .top) : listjobs s.table = listChildren s.table s.procs := by
  have hfg : ∀ i, (s.table.jobs i).state ≠ .FG := by
    intro i hi
    have hallowed := (reachable_foreground h.reachable).allowed i hi
    rw [hmain] at hallowed
    exact hallowed
  have hnamed := reachable_named h.reachable
  refine List.flatMap_congr fun i _ => ?_
  by_cases hi : (s.table.jobs i).pid = 0
  · have hnone : s.procs.lookup 0 = none := by
      refine AList.lookup_eq_none.mpr fun hmem => ?_
      exact absurd ((reachable_registry h.reachable).children 0 hmem) (by decide)
    rw [if_neg (not_not.mpr hi), hi, hnone]
  · obtain ⟨c, hc, hstatus⟩ := hrest.child h.reachable hi
    have hiff := state_at_rest h hrest hc
    have hword := stateText_eq i (hnamed i hi) (hfg i) hstatus (state_at_rest h hrest hc)
    rw [if_pos hi, hc, hword]

end Shell
