import CsappExperiments.ShellLab.Machine

/-! # Shell Lab: the order of the reports does not matter

    Pending SIGCHLDs coalesce, so it is not up to the shell in which order
    `waitpid` reports its children, nor how many activations of
    `sigchld_handler` it takes to hear of all of them. What a report does to
    the table depends on the slot of its child only, up to `nextjid`, and
    that is computed anew from whatever the deletions leave.

    `sigchldHandler` is what an activation of the handler does to the table,
    `shell_sigchldHandler` finds it in the runs of the shell.
-/

open CLib

namespace Shell

/-! ## Section 1: The handler and the table -/

/-- The body of the handler's loop. `none` where it dereferences NULL. -/
def handleReport (t : JobTable) (how : Report) (pid : Pid) : Option JobTable :=
  match how with
  | .exited => some (deletejob t pid).2
  | .signaled => (getjobpid t pid).map fun _ => (deletejob t pid).2
  | .stopped => (getjobpid t pid).map fun jobPtr => t.setState jobPtr .ST

/-- The job table under the reports of `waitpid`. -/
def reaping : LTS.System JobTable (Report × Pid) where
  init := initjobs
  step := fun t (how, pid) => handleReport t how pid

/-- One activation of `sigchld_handler`, in which `waitpid` makes these reports. -/
def sigchldHandler (t : JobTable) (reports : List (Report × Pid)) : Option JobTable :=
  reaping.run t reports

/-- Several activations, one after the other. -/
def sigchldHandlers (t : JobTable) : List (List (Report × Pid)) → Option JobTable
  | [] => some t
  | reports :: deliveries => (sigchldHandler t reports).bind fun t' => sigchldHandlers t' deliveries

theorem sigchldHandlers_flatten (t : JobTable) (deliveries : List (List (Report × Pid))) :
    sigchldHandlers t deliveries = sigchldHandler t deliveries.flatten := by
  induction deliveries generalizing t with
  | nil => rfl
  | cons reports deliveries ih =>
    rw [List.flatten_cons, sigchldHandler, LTS.System.run_append]
    exact congrArg (Option.bind _) (funext ih)

/-! ## Section 2: The handler in the shell -/

/-- The number of steps from a report to the next call of `waitpid`. -/
def reportSteps : Report → Nat
  | .exited => 3
  | .signaled | .stopped => 5

/-- The steps of the shell for one report, without interruption. -/
def reportRun (r : Report × Pid) : List Label :=
  .waitpid r.2 :: List.replicate (reportSteps r.1) .run

theorem shell_handleReport {s : State} {saved : SigSet} {fs : List Frame} {how : Report}
    {pid : Pid} {t : JobTable} (hhalted : s.halted = none)
    (hframes : s.frames = ⟨.chld .wait, saved⟩ :: fs)
    (hchild : (s.procs.lookup pid).bind (·.status.report) = some how)
    (ht : handleReport s.table how pid = some t) :
    shell.run s (reportRun (how, pid)) =
      some { s with table := t, procs := reap s.procs pid how } := by
  obtain ⟨table, main, frames, blocked, pending, procs, helpers, halted⟩ := s
  subst hhalted
  subst hframes
  have hwait : shell.step ⟨table, main, ⟨.chld .wait, saved⟩ :: fs, blocked, pending, procs,
      helpers, none⟩ (.waitpid pid) =
      some ⟨table, main, ⟨.chld (.reported how pid), saved⟩ :: fs, blocked, pending,
          reap procs pid how, helpers, none⟩ := by
    simp [shell, step, hchild]
  rw [reportRun, LTS.System.run, hwait, Option.bind_some]
  cases how with
  | exited =>
    obtain rfl := Option.some.inj ht
    rfl
  | signaled =>
    obtain ⟨jobPtr, hjob, rfl⟩ := Option.map_eq_some_iff.mp ht
    simp [reportSteps, List.replicate, LTS.System.run, shell, step, frameStep, chldStep, hjob]
  | stopped =>
    obtain ⟨jobPtr, hjob, rfl⟩ := Option.map_eq_some_iff.mp ht
    simp [reportSteps, List.replicate, LTS.System.run, shell, step, frameStep, chldStep, hjob]

/-- An activation of the handler that nothing interrupts does to the table
    what `sigchldHandler` says. -/
theorem shell_sigchldHandler {reports : List (Report × Pid)} {s : State} {saved : SigSet}
    {fs : List Frame} {t : JobTable} (hhalted : s.halted = none)
    (hframes : s.frames = ⟨.chld .wait, saved⟩ :: fs) (hnodup : (reports.map Prod.snd).Nodup)
    (hchild : ∀ r ∈ reports, (s.procs.lookup r.2).bind (·.status.report) = some r.1)
    (ht : sigchldHandler s.table reports = some t) :
    ∃ procs, shell.run s (reports.flatMap reportRun) =
      some { s with table := t, procs := procs } := by
  induction reports generalizing s with
  | nil =>
    obtain rfl := Option.some.inj ht
    exact ⟨s.procs, rfl⟩
  | cons r reports ih =>
    obtain ⟨how, pid⟩ := r
    obtain ⟨hpid, hnodup⟩ := List.nodup_cons.mp hnodup
    obtain ⟨t', ht', hrest⟩ := Option.bind_eq_some_iff.mp ht
    have hfirst := shell_handleReport hhalted hframes (hchild _ List.mem_cons_self) ht'
    -- the other children can still be reported
    have hchild' : ∀ r ∈ reports, ((reap s.procs pid how).lookup r.2).bind (·.status.report) =
        some r.1 := by
      intro r hr
      have hne : r.2 ≠ pid := by
        rintro rfl
        exact hpid (List.mem_map.mpr ⟨r, hr, rfl⟩)
      rw [lookup_reap_ne s.procs how hne]
      exact hchild r (List.mem_cons_of_mem _ hr)
    obtain ⟨procs, hprocs⟩ :=
      ih (s := { s with table := t', procs := reap s.procs pid how }) hhalted hframes hnodup
        hchild' hrest
    refine ⟨procs, ?_⟩
    rw [List.flatMap_cons, LTS.System.run_append, hfirst]
    exact hprocs

/-! ## Section 3: One report and its slot -/

/-- What a report does to the slot of its child. -/
def settle (how : Report) (t : JobTable) (i : Slot) : JobTable :=
  if how.terminal then
    { t.setJob i clearjob with nextjid := wrap32 (maxjid (t.setJob i clearjob).jobs + 1) }
  else t.setState i .ST

theorem deletejob_eq (t : JobTable) (pid : Pid) :
    (deletejob t pid).2 = ((getjobpid t pid).map (settle .exited t)).getD t := by
  unfold deletejob getjobpid
  split
  · rfl
  · split
    · next hnone => rw [hnone]; rfl
    · next i hi => rw [hi]; rfl

theorem handleReport_eq (t : JobTable) (how : Report) (pid : Pid) :
    handleReport t how pid =
      match getjobpid t pid with
      | none => if how = .exited then some t else none
      | some i => some (settle how t i) := by
  cases how <;> simp only [handleReport, deletejob_eq] <;> cases getjobpid t pid <;> rfl

/-- What the slot holds after a report. -/
def settled (how : Report) (j : Job) : Job :=
  if how.terminal then clearjob else { j with state := .ST }

theorem settle_jobs (how : Report) (t : JobTable) (i : Slot) :
    (settle how t i).jobs = Function.update t.jobs i (settled how (t.jobs i)) := by
  unfold settle settled
  split <;> rfl

/-- The end of a child determines the counter from the jobs that are left. -/
theorem settle_nextjid (how : Report) (t : JobTable) (i : Slot) :
    (settle how t i).nextjid =
      if how.terminal then wrap32 (maxjid (settle how t i).jobs + 1) else t.nextjid := by
  unfold settle
  split <;> rfl

/-- A report about another child does not change where a job is found. -/
theorem getjobpid_settle (how : Report) {t : JobTable} {i : Slot} {pid : Pid}
    (hne : (t.jobs i).pid ≠ pid) :
    getjobpid (settle how t i) pid = getjobpid t pid := by
  unfold getjobpid
  split
  · rfl
  · next hlt =>
    congr 1
    funext k
    rw [settle_jobs, decide_eq_decide]
    by_cases hk : k = i
    · subst hk
      rw [Function.update_self]
      refine iff_of_false ?_ hne
      unfold settled
      split
      · rintro rfl
        exact hlt (by decide)
      · exact hne
    · rw [Function.update_of_ne hk]

theorem maxjid_congr {jobs jobs' : Slot → Job} (h : ∀ i, (jobs i).jid = (jobs' i).jid) :
    maxjid jobs = maxjid jobs' := by
  simp only [maxjid, h]

theorem settle_jobs_comm (how how' : Report) (t : JobTable) {i k : Slot} (hne : i ≠ k) :
    (settle how (settle how' t k) i).jobs = (settle how' (settle how t i) k).jobs := by
  simp only [settle_jobs, Function.update_of_ne hne, Function.update_of_ne hne.symm]
  exact Function.update_comm hne.symm _ _ _

/-- A stop in between does not change the counter that an end leaves. -/
theorem maxjid_settle_stopped (t : JobTable) (i : Slot) :
    maxjid (settle .stopped t i).jobs = maxjid t.jobs :=
  maxjid_congr fun k => setState_jid t i k .ST

theorem table_ext {t t' : JobTable} (hjobs : t.jobs = t'.jobs) (hnextjid : t.nextjid = t'.nextjid) :
    t = t' := by
  cases t
  cases t'
  exact congrArg₂ JobTable.mk hjobs hnextjid

/-- Reports about two slots commute. -/
theorem settle_comm (how how' : Report) (t : JobTable) {i k : Slot} (hne : i ≠ k) :
    settle how (settle how' t k) i = settle how' (settle how t i) k := by
  have hjobs := settle_jobs_comm how how' t hne
  refine table_ext hjobs ?_
  rw [settle_nextjid how (settle how' t k) i, settle_nextjid how' t k,
    settle_nextjid how' (settle how t i) k,
    settle_nextjid how t i, hjobs]
  by_cases hterm : how.terminal = true <;> by_cases hterm' : how'.terminal = true
  · rw [if_pos hterm, if_pos hterm']
  · obtain rfl := Report.eq_stopped (eq_false_of_ne_true hterm')
    rw [if_pos hterm, if_neg hterm', if_pos hterm, maxjid_settle_stopped]
  · obtain rfl := Report.eq_stopped (eq_false_of_ne_true hterm)
    rw [if_neg hterm, if_pos hterm', if_pos hterm', ← hjobs, maxjid_settle_stopped]
  · rw [if_neg hterm, if_neg hterm', if_neg hterm', if_neg hterm]

/-! ## Section 4: Reordering -/

/-- Reports about two children commute. -/
theorem handleReport_comm (t : JobTable) (how how' : Report) {pid pid' : Pid} (hne : pid ≠ pid') :
    (handleReport t how pid).bind (handleReport · how' pid') =
      (handleReport t how' pid').bind (handleReport · how pid) := by
  cases hi : getjobpid t pid with
  | none =>
    cases hk : getjobpid t pid' with
    | none => cases how <;> cases how' <;> simp [handleReport_eq, hi, hk]
    | some k =>
      have hpid : (t.jobs k).pid ≠ pid := (getjobpid_some hk).2 ▸ hne.symm
      cases how <;> simp [handleReport_eq, hi, hk, getjobpid_settle how' hpid]
  | some i =>
    have hpid' : (t.jobs i).pid ≠ pid' := (getjobpid_some hi).2 ▸ hne
    cases hk : getjobpid t pid' with
    | none => cases how' <;> simp [handleReport_eq, hi, hk, getjobpid_settle how hpid']
    | some k =>
      have hpid : (t.jobs k).pid ≠ pid := (getjobpid_some hk).2 ▸ hne.symm
      have hik : i ≠ k := by
        rintro rfl
        exact hpid (getjobpid_some hi).2
      simp [handleReport_eq, hi, hk, getjobpid_settle how hpid', getjobpid_settle how' hpid,
        settle_comm how how' t hik]

/-- Reports about children that have a job are processed to the end. -/
theorem exists_sigchldHandler {reports : List (Report × Pid)}
    (hnodup : (reports.map Prod.snd).Nodup) {t : JobTable}
    (hpresent : ∀ r ∈ reports, getjobpid t r.2 ≠ none) :
    ∃ t', sigchldHandler t reports = some t' := by
  induction reports generalizing t with
  | nil => exact ⟨t, rfl⟩
  | cons r reports ih =>
    obtain ⟨how, pid⟩ := r
    obtain ⟨hpid, hnodup⟩ := List.nodup_cons.mp hnodup
    obtain ⟨i, hi⟩ := Option.ne_none_iff_exists'.mp (hpresent _ List.mem_cons_self)
    have hstep : handleReport t how pid = some (settle how t i) := by rw [handleReport_eq, hi]
    have hpresent' : ∀ r ∈ reports, getjobpid (settle how t i) r.2 ≠ none := by
      intro r hr
      have hne : (t.jobs i).pid ≠ r.2 := by
        rw [(getjobpid_some hi).2]
        intro heq
        exact hpid (List.mem_map.mpr ⟨r, hr, heq.symm⟩)
      rw [getjobpid_settle how hne]
      exact hpresent r (List.mem_cons_of_mem _ hr)
    obtain ⟨t', ht'⟩ := ih hnodup hpresent'
    refine ⟨t', ?_⟩
    show (handleReport t how pid).bind _ = _
    rw [hstep]
    exact ht'

/-- The order and the grouping of the reports do not matter: whatever the job
    table is, reports about different children that it has, in any order and
    split over any activations of the handler, lead to one table, `nextjid`
    included. -/
theorem reaping_order_irrelevant (t : JobTable)
    {deliveries deliveries' : List (List (Report × Pid))}
    (hperm : deliveries.flatten.Perm deliveries'.flatten)
    (hnodup : (deliveries.flatten.map Prod.snd).Nodup)
    (hpresent : ∀ r ∈ deliveries.flatten, 1 ≤ r.2 ∧ ∃ i, (t.jobs i).pid = r.2) :
    ∃ t', sigchldHandlers t deliveries = some t' ∧ sigchldHandlers t deliveries' = some t' := by
  have hcomm : ∀ r ∈ deliveries.flatten, ∀ r' ∈ deliveries.flatten, ∀ s : JobTable,
      (reaping.step s r).bind (reaping.step · r') =
        (reaping.step s r').bind (reaping.step · r) := by
    intro r hr r' hr' s
    by_cases heq : r.2 = r'.2
    · obtain rfl := List.inj_on_of_nodup_map hnodup hr hr' heq
      rfl
    · exact handleReport_comm s r.1 r'.1 heq
  have hfound : ∀ r ∈ deliveries.flatten, getjobpid t r.2 ≠ none := by
    intro r hr
    obtain ⟨hpid, i, hi⟩ := hpresent r hr
    exact getjobpid_ne_none hpid hi
  obtain ⟨t', ht'⟩ := exists_sigchldHandler hnodup hfound
  refine ⟨t', by rw [sigchldHandlers_flatten, ht'], ?_⟩
  rw [sigchldHandlers_flatten, ← ht']
  exact (reaping.run_perm hperm hcomm t).symm

/-- Two background jobs; one has stopped and the other one has exited. The
    table keeps the first one, in state ST, and the next job ID is 2. -/
theorem reaping_order_irrelevant_run :
    ∃ t', sigchldHandlers (addjob (addjob initjobs 2 .BG []).2 3 .BG []).2
      [[(.stopped, 2), (.exited, 3)]] = some t' ∧
      sigchldHandlers (addjob (addjob initjobs 2 .BG []).2 3 .BG []).2
        [[(.exited, 3)], [(.stopped, 2)]] = some t' ∧
      t'.jobs 0 = ⟨2, 1, .ST, []⟩ ∧ t'.jobs 1 = clearjob ∧ t'.nextjid = 2 := by
  have hrun : (sigchldHandlers (addjob (addjob initjobs 2 .BG []).2 3 .BG []).2
      [[(.stopped, 2), (.exited, 3)]]).any
      (fun t' => decide (t'.jobs 0 = ⟨2, 1, .ST, []⟩ ∧ t'.jobs 1 = clearjob ∧ t'.nextjid = 2)) =
          true := by
    decide +kernel
  have hperm : [[(Report.stopped, 2), (.exited, 3)]].flatten.Perm
      [[(Report.exited, (3 : Pid))], [(.stopped, 2)]].flatten :=
    .swap _ _ _
  obtain ⟨t', ht', ht''⟩ :=
    reaping_order_irrelevant (addjob (addjob initjobs 2 .BG []).2 3 .BG []).2 hperm (by decide)
      (by decide)
  rw [ht'] at hrun
  obtain ⟨hST, hcleared, hnext⟩ := of_decide_eq_true hrun
  exact ⟨t', ht', ht'', hST, hcleared, hnext⟩

end Shell
