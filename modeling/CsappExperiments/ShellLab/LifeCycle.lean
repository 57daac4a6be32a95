import CsappExperiments.ShellLab.Foreground

/-! # Shell Lab: the life of a job

    What a step of the shell can do to an entry of `jobs[]`, whatever is
    interrupted by what: `addjob` fills a free entry for the child that `eval`
    has just forked, `deletejob` clears one whose child has been reaped, and in
    between only the state changes, along the diagram at the head of `tsh.c`
    (`slot_move`). The diagram has a job stop by ctrl-z only. A job in the
    background can stop as well, and `bg` may name a job that is running
    (`StateMove`).

    All changes but the store of `do_bgfg` are made with every signal blocked
    (`Sealed`).
-/

open CLib

namespace Shell

/-! ## Section 1: The diagram -/

/-- The changes of state that jobs make. -/
inductive StateMove : JobState → JobState → Prop where
  | stop (st : JobState) : st ≠ .UNDEF → StateMove st .ST
  | fg (st : JobState) : st = .ST ∨ st = .BG → StateMove st .FG
  | bg (st : JobState) : st = .ST ∨ st = .BG → StateMove st .BG

/-- What action `a` can make of entry `i`. -/
inductive SlotStep (v : View) (a : Act) (i : Slot) : Job → Prop where
  | same : SlotStep v a i (v.table.jobs i)
  /-- `eval` calls `addjob` for its child. -/
  | register (bg : Bool) (cmdline : CStr) (pid : Pid) (prevOne : SigSet) : a = .addjob bg pid →
      v.main = .evalAdd bg cmdline pid prevOne → (v.table.jobs i).pid = 0 →
      SlotStep v a i ⟨pid, v.table.nextjid, if bg then .BG else .FG, cmdline⟩
  /-- `sigchld_handler` calls `deletejob`; the child has been reaped. -/
  | delete (how : Report) : a = .update how (v.table.jobs i).pid → how.terminal = true →
      (v.table.jobs i).pid ∉ v.procs → SlotStep v a i clearjob
  /-- `sigchld_handler` stores ST; the child has stopped. -/
  | stop : a = .update .stopped (v.table.jobs i).pid → (v.table.jobs i).pid ∈ v.procs →
      SlotStep v a i { v.table.jobs i with state := .ST }
  /-- `do_bgfg` stores FG or BG; the job is not in the foreground. -/
  | store (fg : Bool) : a = .store fg i → (v.table.jobs i).state ≠ .FG →
      SlotStep v a i { v.table.jobs i with state := if fg then .FG else .BG }

/-- A store changes one entry. -/
theorem SlotStep.setState {v : View} {a : Act} {k : Slot} {st : JobState}
    (h : SlotStep v a k { v.table.jobs k with state := st }) (i : Slot) :
    SlotStep v a i ((v.table.setState k st).jobs i) := by
  by_cases hik : i = k
  · subst hik
    simpa [JobTable.setState] using h
  · rw [setState_ne _ st hik]
    exact .same

theorem slot_move {v v' : View} {a : Act} (hv : Consistent v) (hm : Move v a v') (i : Slot) :
    SlotStep v a i (v'.table.jobs i) := by
  cases hm with
  | delete how pid j prev hpc hterm =>
    dsimp only
    obtain hsame | ⟨hpid, hcleared⟩ := deletejob_jobs v.table pid i
    · rw [hsame]
      exact .same
    · rw [hcleared]
      subst hpid
      exact .delete how rfl hterm (hv.registry.deleting hpc hterm).2
  | stop pid k prev hpc =>
    obtain ⟨hk, _, c, hc, _⟩ := hv.registry.marking hpc
    refine SlotStep.setState ?_ i
    subst hk
    exact .stop rfl (AList.lookup_isSome.mp (by rw [hc]; rfl))
  | addjob bg cmdline pid prev hnone hmain =>
    dsimp only
    have hpid : 1 < pid := hv.registry.newborn_lt (by rw [hmain]; rfl)
    obtain ⟨_, heq⟩ | ⟨k, _, hfree, heq⟩ :=
      addjob_cases (t := v.table) hpid.le (if bg then .BG else .FG) cmdline
    · rw [heq]
      exact .same
    · by_cases hik : i = k
      · subst hik
        rw [heq]
        simpa using SlotStep.register bg cmdline pid prev rfl hmain hfree
      · have hold : (addjob v.table pid (if bg then .BG else .FG) cmdline).2.jobs i =
            v.table.jobs i := by
          rw [heq]
          exact setJob_ne _ _ hik
        rw [hold]
        exact .same
  | store fg k hnone hmain =>
    refine SlotStep.setState (.store fg rfl ?_) i
    -- there is no foreground job while `do_bgfg` has not stored
    intro hfg
    have hallowed := hv.foreground.allowed k hfg
    rw [hmain] at hallowed
    exact hallowed
  | _ => exact .same

/-! ## Section 2: From addjob to deletejob -/

/-- An entry in use has a state. -/
def Named (t : JobTable) : Prop := ∀ i, (t.jobs i).pid ≠ 0 → (t.jobs i).state ≠ .UNDEF

/-- What an entry says about its job besides the state. -/
def Job.SameJob (j j' : Job) : Prop := j'.pid = j.pid ∧ j'.jid = j.jid ∧ j'.cmdline = j.cmdline

theorem SlotStep.named {v : View} {a : Act} {i : Slot} {j : Job} (h : SlotStep v a i j)
    (hnamed : (v.table.jobs i).pid ≠ 0 → (v.table.jobs i).state ≠ .UNDEF) (hj : j.pid ≠ 0) :
    j.state ≠ .UNDEF := by
  cases h with
  | same => exact hnamed hj
  | register bg => cases bg <;> simp
  | delete => exact absurd rfl hj
  | stop => simp
  | store fg => cases fg <;> simp

/-- An entry that stays in use keeps its job, whose state moves along the diagram. -/
theorem SlotStep.keeps {v : View} {a : Act} {i : Slot} {j : Job} (h : SlotStep v a i j)
    (hnamed : (v.table.jobs i).state ≠ .UNDEF) (hi : (v.table.jobs i).pid ≠ 0) (hj : j.pid ≠ 0) :
    (v.table.jobs i).SameJob j ∧
      (j.state = (v.table.jobs i).state ∨ StateMove (v.table.jobs i).state j.state) := by
  cases h with
  | same => exact ⟨⟨rfl, rfl, rfl⟩, .inl rfl⟩
  | register bg cmdline pid prevOne _ _ hfree => exact absurd hfree hi
  | delete => exact absurd rfl hj
  | stop => exact ⟨⟨rfl, rfl, rfl⟩, .inr (.stop _ hnamed)⟩
  | store fg _ hfg =>
    have hstate : (v.table.jobs i).state = .ST ∨ (v.table.jobs i).state = .BG := by
      cases hst : (v.table.jobs i).state with
      | UNDEF => exact absurd hst hnamed
      | FG => exact absurd hst hfg
      | BG => exact .inr rfl
      | ST => exact .inl rfl
    refine ⟨⟨rfl, rfl, rfl⟩, .inr ?_⟩
    cases fg with
    | true => exact .fg _ hstate
    | false => exact .bg _ hstate

theorem step_slot {s s' : State} {l : Label} (hr : shell.Reachable s) (h : step s l = some s')
    (i : Slot) :
    SlotStep s.view (s.act l) i (s'.table.jobs i) :=
  slot_move (reachable_consistent s hr) (step_move (reachable_mask hr) h) i

theorem reachable_named {s : State} (h : shell.Reachable s) : Named s.table :=
  LTS.System.Reachable.invariant (P := fun s => Named s.table) (fun _ hi => absurd rfl hi)
    (fun _ _ _ hr hnamed hs i hi => (step_slot hr hs i).named (hnamed i) hi) h

/-- Entry `i` holds a job. -/
def InUse (i : Slot) (s : State) : Prop := (s.table.jobs i).pid ≠ 0

/-- The step leaves the state of entry `i`, or moves it along the diagram. -/
def FollowsDiagram (i : Slot) (s : State) (l : Label) : Prop :=
  ∀ s', step s l = some s' →
    (s'.table.jobs i).state = (s.table.jobs i).state ∨
      StateMove (s.table.jobs i).state (s'.table.jobs i).state

theorem Job.SameJob.trans {j j' j'' : Job} (h : j.SameJob j') (h' : j'.SameJob j'') :
    j.SameJob j'' :=
  ⟨h'.1.trans h.1, h'.2.1.trans h.2.1, h'.2.2.trans h.2.2⟩

theorem run_keeps {ls : List Label} {s s' : State} (hr : shell.Reachable s)
    (hrun : shell.run s ls = some s') {i : Slot} (huse : shell.Throughout (InUse i) s ls) :
    (s.table.jobs i).SameJob (s'.table.jobs i) ∧ shell.EveryStep (FollowsDiagram i) s ls := by
  -- by induction on the run, one step at a time
  induction ls generalizing s with
  | nil =>
    obtain rfl : s = s' := Option.some.inj hrun
    exact ⟨⟨rfl, rfl, rfl⟩, trivial⟩
  | cons l ls ih =>
    obtain ⟨hi, hrest⟩ := huse
    have hkeeps : ∀ s₁, step s l = some s₁ → (s.table.jobs i).SameJob (s₁.table.jobs i) ∧
        ((s₁.table.jobs i).state = (s.table.jobs i).state ∨
          StateMove (s.table.jobs i).state (s₁.table.jobs i).state) :=
      fun s₁ hs₁ => (step_slot hr hs₁ i).keeps (reachable_named hr i hi) hi (hrest s₁ hs₁).head
    obtain ⟨s₁, hs₁, htail⟩ := Option.bind_eq_some_iff.mp hrun
    obtain ⟨hsame, hevery⟩ := ih (hr.step hs₁) htail (hrest s₁ hs₁)
    refine ⟨(hkeeps s₁ hs₁).1.trans hsame, ?_⟩
    intro s₂ hs₂
    obtain rfl : s₁ = s₂ := Option.some.inj (hs₁.symm.trans hs₂)
    exact ⟨fun s₂ hs₂ => (hkeeps s₂ hs₂).2, hevery⟩

/-- A step fills an entry by `eval`'s `addjob`, clears it when its child has
    been reaped, or changes its state. While an entry is in use, it is of one
    job, with one ID and one command line, whose state follows the diagram. -/
theorem job_life {s : State} (h : shell.Reachable s) :
    (∀ l s', step s l = some s' → ∀ i, SlotStep s.view (s.act l) i (s'.table.jobs i)) ∧
    ∀ ls s', shell.run s ls = some s' → ∀ i, shell.Throughout (InUse i) s ls →
      (s.table.jobs i).SameJob (s'.table.jobs i) ∧ shell.EveryStep (FollowsDiagram i) s ls :=
  ⟨fun _ _ hs i => step_slot h hs i, fun _ _ hrun _ huse => run_keeps h hrun huse⟩

/-- `fg` of a stopped job: its store. -/
theorem job_life_fg :
    ∃ s s', shell.Reachable s ∧ shell.run s [.run] = some s' ∧ (s.table.jobs 0).state = .ST ∧
      (s'.table.jobs 0).state = .FG ∧ (s.table.jobs 0).SameJob (s'.table.jobs 0) := by
  have hrun : (shell.run initial (launchBg 2 ++ [.child 2 .setpgid, .child 2 .stop] ++ handle 2 7 ++
      [.readLine "fg %1\n".toList, .run, .run])).any
        (fun s => decide ((s.table.jobs 0).state = .ST ∧ (s.table.jobs 0).pid = 2 ∧
          (shell.run s [.run]).any
            (fun s' => decide ((s'.table.jobs 0).state = .FG ∧ (s'.table.jobs 0).pid = 2)))) =
      true := by
    decide +kernel
  obtain ⟨s, hs, hp⟩ := LTS.System.Reachable.init.exists_run hrun
  obtain ⟨hST, hpid, hnext⟩ := of_decide_eq_true hp
  obtain ⟨s', hs', hp'⟩ := (Option.any_eq_true _ _).mp hnext
  obtain ⟨hFG, hpid'⟩ := of_decide_eq_true hp'
  refine ⟨s, s', hs, hs', hST, hFG, ((job_life hs).2 [.run] s' hs' 0 ⟨by simp [InUse, hpid], ?_⟩).1⟩
  intro s₁ hs₁
  obtain rfl : s' = s₁ := by
    rw [LTS.System.run, hs₁] at hs'
    exact (Option.some.inj hs').symm
  simp [LTS.System.Throughout, InUse, hpid']

/-! ## Section 3: Updates under a full mask -/

/-- `sigchld_handler` has blocked all signals, to update the table. -/
def Frame.updating (f : Frame) : Bool :=
  match f.pc with
  | .chld (.masked ..) | .chld (.updated _) => true
  | _ => false

/-- An activation that is updating the table is on top, with all signals blocked. -/
def Sealed (blocked : SigSet) : List Frame → Prop
  | [] => True
  | f :: fs => (f.updating = true → blocked = Finset.univ) ∧ ∀ g ∈ fs, g.updating = false

theorem Sealed.tail {b b' : SigSet} {f : Frame} {fs : List Frame} (h : Sealed b (f :: fs)) :
    Sealed b' fs := by
  cases fs with
  | nil => trivial
  | cons g gs =>
    have hg : g.updating = false := h.2 g List.mem_cons_self
    exact ⟨fun hup => absurd (hg.symm.trans hup) Bool.false_ne_true, fun k hk =>
      h.2 k (List.mem_cons_of_mem g hk)⟩

/-- No signal is delivered to an activation that is updating. -/
theorem Sealed.push {b b' saved : SigSet} {frames : List Frame} {sig : Sig} (h : Sealed b frames)
    (hsig : sig ∉ b) :
    Sealed b' (⟨handler sig, saved⟩ :: frames) := by
  have hstart : (Frame.mk (handler sig) saved).updating = false := by
    cases sig <;> rfl
  refine ⟨fun hup => absurd (hstart.symm.trans hup) Bool.false_ne_true, ?_⟩
  cases frames with
  | nil => exact fun g hg => absurd hg List.not_mem_nil
  | cons f fs =>
    refine List.forall_mem_cons.mpr ⟨?_, h.2⟩
    by_contra hup
    rw [h.1 (by simpa using hup)] at hsig
    exact hsig (Finset.mem_univ sig)

theorem frameStep_sealed {s s' : State} {f : Frame} {fs : List Frame} (hf : s.frames = f :: fs)
    (hs : Sealed s.blocked (f :: fs)) (h : frameStep s f fs = some s') :
    Sealed s'.blocked s'.frames := by
  obtain ⟨pc, saved⟩ := f
  have hreplace : ∀ pc' b', (Frame.mk pc' saved).updating = false →
      Sealed b' (⟨pc', saved⟩ :: fs) :=
    fun pc' b' hno => ⟨fun hup => absurd (hno.symm.trans hup) Bool.false_ne_true, hs.2⟩
  cases pc with
  | termReturn =>
    obtain rfl := Option.some.inj h
    exact hs.tail
  | termRead sig =>
    obtain rfl := Option.some.inj h
    exact hreplace _ _ rfl
  | termKill sig pid =>
    simp only [frameStep] at h
    split at h <;> obtain rfl := Option.some.inj h
    · rw [hf]
      exact hs
    · exact hreplace _ _ rfl
  | quit =>
    obtain rfl := Option.some.inj h
    rw [hf]
    exact hs
  | chld pc =>
    obtain ⟨rfl, rfl⟩ | ⟨pc', s₁, hstep, rfl⟩ := frameStep_chld h
    · exact hs.tail
    · -- the table is updated at two points, both right after `sigprocmask`
      cases hstep with
      | drained | lookup | print | unblock => exact hreplace _ _ rfl
      | block | blockAll => exact ⟨fun _ => rfl, hs.2⟩
      | delete | stop => exact ⟨fun _ => hs.1 rfl, hs.2⟩
      | nullPrint | nullStore => exact hs

theorem sealed_step {s s' : State} {l : Label} (hm : MaskInv s.main s.frames s.blocked)
    (hs : Sealed s.blocked s.frames) (h : step s l = some s') : Sealed s'.blocked s'.frames := by
  obtain ⟨_, hstep⟩ := step_cases h
  cases hstep with
  | child | join | leave | raise | readEnd | forkFail | fork => exact hs
  | deliver sig _ hblocked =>
    obtain ⟨saved, blocked, heq⟩ := interrupt_eq hm sig
    rw [heq]
    exact hs.push hblocked
  | readLine cmdline _ hf _ hline =>
    obtain rfl | rfl | ⟨bg, rfl⟩ | ⟨argv0, argv1, rfl⟩ := evalLine_cases hline <;> exact hs
  | waitpid pid how c saved fs hf =>
    rw [hf] at hs
    exact ⟨fun hup => absurd hup Bool.false_ne_true, hs.2⟩
  | main _ hf hmain =>
    rw [hf] at hm
    rw [(mainStep_mask hm.base hmain).1, hf]
    trivial
  | frame f fs _ hf hframe =>
    rw [hf] at hs
    exact frameStep_sealed hf hs hframe

theorem reachable_sealed {s : State} (h : shell.Reachable s) : Sealed s.blocked s.frames :=
  LTS.System.Reachable.invariant (P := fun s => Sealed s.blocked s.frames)
    (show Sealed ∅ [] from trivial)
    (fun _ _ _ hr hs hstep => sealed_step (reachable_mask hr) hs hstep) h

theorem mainStep_table {s s' : State} (h : mainStep s = some s') :
    s'.table = s.table ∨ (∃ bg cmdline pid prevOne, s.main = .evalAdd bg cmdline pid prevOne) ∨
      ∃ fg i, s.main = .bgfgStore fg i := by
  cases hmain : s.main <;> simp only [mainStep, hmain] at h
  case top | evalFork | waitfgSleep => cases h
  case evalAdd bg cmdline pid prevOne => exact .inr (.inl ⟨bg, cmdline, pid, prevOne, rfl⟩)
  case bgfgStore fg i => exact .inr (.inr ⟨fg, i, rfl⟩)
  case bgfgLookup => split at h <;> obtain rfl := Option.some.inj h <;> exact .inl rfl
  case waitfgTest => split at h <;> obtain rfl := Option.some.inj h <;> exact .inl rfl
  all_goals
    obtain rfl := Option.some.inj h
    exact .inl rfl

/-- `jobs[]` and `nextjid` are changed with all signals blocked, so no handler
    sees them half changed, or by the store of `do_bgfg`, when no handler is active. -/
theorem table_changed_masked {s s' : State} {l : Label} (hr : shell.Reachable s)
    (h : step s l = some s') (hne : s'.table ≠ s.table) :
    s.blocked = Finset.univ ∨ s.frames = [] ∧ ∃ fg i, s.act l = .store fg i := by
  obtain ⟨_, hstep⟩ := step_cases h
  cases hstep with
  | child | join | leave | raise | readEnd | forkFail | fork | waitpid => exact absurd rfl hne
  | deliver sig _ hblocked =>
    obtain ⟨saved, blocked, heq⟩ := interrupt_eq (reachable_mask hr) sig
    rw [heq] at hne
    exact absurd rfl hne
  | readLine cmdline _ hf _ hline =>
    obtain rfl | rfl | ⟨bg, rfl⟩ | ⟨argv0, argv1, rfl⟩ :=
      evalLine_cases hline <;> exact absurd rfl hne
  | main _ hf hmain =>
    obtain htable | ⟨bg, cmdline, pid, prevOne, hadd⟩ | ⟨fg, i, hstore⟩ := mainStep_table hmain
    · exact absurd htable hne
    · -- `eval` has blocked all signals since before `addjob`
      have hbase := (reachable_mask hr).base
      rw [hf, hadd] at hbase
      exact .inl hbase.1
    · exact .inr ⟨hf, fg, i, by simp [State.act, hf, hstore]⟩
  | frame f fs _ hf hframe =>
    have hsealed := reachable_sealed hr
    rw [hf] at hsealed
    obtain ⟨pc, saved⟩ := f
    cases pc with
    | termReturn | termRead | quit =>
      obtain rfl := Option.some.inj hframe
      exact absurd rfl hne
    | termKill sig pid =>
      simp only [frameStep] at hframe
      split at hframe <;> obtain rfl := Option.some.inj hframe <;> exact absurd rfl hne
    | chld pc =>
      obtain ⟨rfl, rfl⟩ | ⟨pc', s₁, hchld, rfl⟩ := frameStep_chld hframe
      · exact absurd rfl hne
      · cases hchld with
        | delete | stop => exact .inl (hsealed.1 rfl)
        | _ => exact absurd rfl hne

/-- The handler deletes a job, with all signals blocked. -/
theorem table_changed_masked_delete :
    ∃ s s', shell.Reachable s ∧ step s .run = some s' ∧ (s.table.jobs 0).pid = 2 ∧
      (s'.table.jobs 0).pid = 0 ∧
      (s.blocked = Finset.univ ∨ s.frames = [] ∧ ∃ fg i, s.act .run = .store fg i) := by
  have hrun : (shell.run initial (launchBg 2 ++ [.child 2 .exit] ++ handle 2 1)).any
      (fun s => decide ((s.table.jobs 0).pid = 2 ∧
        (step s .run).any fun s' => decide ((s'.table.jobs 0).pid = 0))) =
        true := by
    decide +kernel
  obtain ⟨s, hs, hp⟩ := LTS.System.Reachable.init.exists_run hrun
  obtain ⟨htwo, hnext⟩ := of_decide_eq_true hp
  obtain ⟨s', hs', hp'⟩ := (Option.any_eq_true _ _).mp hnext
  have hzero := of_decide_eq_true hp'
  refine ⟨s, s', hs, hs', htwo, hzero, table_changed_masked hs hs' ?_⟩
  intro heq
  rw [heq, htwo] at hzero
  cases hzero

end Shell
