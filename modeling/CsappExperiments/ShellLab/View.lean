import CsappExperiments.ShellLab.Masks

/-! # Shell Lab: the job table and the processes

    An abstract model of the shell: the job table, the children, the point
    of the main line and the activation of `sigchld_handler`, if there is
    one. Masks and the handler stack are gone; what they guarantee is kept
    as the side conditions of the moves: `sigchld_handler` starts only when
    it is not active and the main line is not `critical`, and the main line
    moves only while it is not active.

    `shell_abstraction` connects it to the machine: every step of the shell
    is one of these moves.
-/

open CLib

namespace Shell

/-! ## Section 1: Views and actions -/

/-- The pid that an activation of `sigint_handler` or `sigtstp_handler` has
    read and not used yet. -/
def Frame.held? (f : Frame) : Option Pid :=
  match f.pc with
  | .termKill _ pid => some pid
  | _ => none

def heldOf (frames : List Frame) : List Pid := frames.filterMap Frame.held?

theorem heldOf_cons (f : Frame) (fs : List Frame) :
    heldOf (f :: fs) = f.held?.toList ++ heldOf fs := by
  unfold heldOf
  rw [List.filterMap_cons]
  cases f.held? <;> rfl

structure View where
  table : JobTable
  procs : ProcTable
  helpers : Finset Pid
  main : MainPc
  /-- The activation of `sigchld_handler`. -/
  chld : Option ChldPc
  /-- SIGCHLD is pending. -/
  sigchld : Bool
  /-- The pids held by the activations of `sigint_handler`, `sigtstp_handler`. -/
  held : List Pid
  /-- A NULL pointer has been dereferenced. -/
  crashed : Bool

def State.view (s : State) : View where
  table := s.table
  procs := s.procs
  helpers := s.helpers
  main := s.main
  chld := chldOf s.frames
  sigchld := Sig.SIGCHLD ∈ s.pending
  held := heldOf s.frames
  crashed := s.halted = some .crashed

/-- The accesses to shared data that the results speak about. -/
inductive Act where
  /-- `waitpid` reports `how` about `pid`. -/
  | reap (how : Report) (pid : Pid)
  /-- `sigchld_handler` updates the table for its report. -/
  | update (how : Report) (pid : Pid)
  /-- `eval` calls `addjob`. -/
  | addjob (bg : Bool) (pid : Pid)
  /-- `do_bgfg` stores FG or BG. -/
  | store (fg : Bool) (jobPtr : Slot)
  /-- `sigint_handler` or `sigtstp_handler` calls `fgpid`. -/
  | readFg
  /-- `sigint_handler` or `sigtstp_handler` signals the group of `pid`. -/
  | kill (sig : Sig) (pid : Pid)
  /-- The members of the group of `pid` besides its leader are gone. -/
  | leave (pid : Pid)
  | other
  deriving DecidableEq

/-- The action that label `l` performs in state `s`. -/
def State.act (s : State) (l : Label) : Act :=
  match l with
  | .waitpid pid =>
    match (s.procs.lookup pid).bind (·.status.report) with
    | some how => .reap how pid
    | none => .other
  | .leave pid => .leave pid
  | .run =>
    match s.frames with
    | [] =>
      match s.main with
      | .evalAdd bg _ pid _ => .addjob bg pid
      | .bgfgStore fg jobPtr => .store fg jobPtr
      | _ => .other
    | f :: _ =>
      match f.pc with
      | .chld (.masked how pid _ _) => .update how pid
      | .termRead _ => .readFg
      | .termKill sig pid => .kill sig pid
      | _ => .other
  | _ => .other

/-- The actions of the handlers. -/
def Act.handler : Act → Bool
  | .update .. | .readFg | .kill .. => true
  | _ => false

/-- A handler acts when it is on top of the stack. -/
theorem run_of_act {s : State} {l : Label} (h : (s.act l).handler = true) :
    l = .run ∧ ∃ f fs, s.frames = f :: fs := by
  unfold State.act at h
  split at h
  · split at h <;> cases h
  · cases h
  · split at h
    · split at h <;> cases h
    · next f fs hf => exact ⟨rfl, f, fs, hf⟩
  · cases h

/-! ## Section 2: Moves -/

/-- A delivered signal ends `sigsuspend`. -/
def MainPc.wake : MainPc → MainPc
  | .waitfgSleep caller pid _ => .waitfgTest caller pid
  | m => m

/-- Steps of the main line that change neither the table nor the children. -/
inductive MainLocal (t : JobTable) : MainPc → MainPc → Prop where
  | line (bg : Bool) (cmdline : CStr) : MainLocal t .top (.evalBlock bg cmdline)
  | builtin (argv0 : CStr) (argv1 : Option CStr) : MainLocal t .top (.bgfgLookup argv0 argv1)
  | block (bg : Bool) (cmdline : CStr) (prev : SigSet) :
      MainLocal t (.evalBlock bg cmdline) (.evalFork bg cmdline prev)
  | blockAll (bg : Bool) (cmdline : CStr) (pid : Pid) (prev : SigSet) :
      MainLocal t (.evalForked bg cmdline pid prev) (.evalAdd bg cmdline pid prev)
  | unblock (cmdline : CStr) (pid : Pid) (prev : SigSet) :
      MainLocal t (.evalUnblock cmdline pid prev) (.evalPrint cmdline pid)
  | print (cmdline : CStr) (pid : Pid) : MainLocal t (.evalPrint cmdline pid) (.evalReturn true pid)
  | evalReturn (bg : Bool) (pid : Pid) : MainLocal t (.evalReturn bg pid) .top
  | noJob (argv0 : CStr) (argv1 : Option CStr) : MainLocal t (.bgfgLookup argv0 argv1) .top
  | job (argv0 : CStr) (argv1 : Option CStr) (fg : Bool) (i : Slot) :
      bgfgJob t argv0 argv1 = .ok i → MainLocal t (.bgfgLookup argv0 argv1) (.bgfgKill fg i)
  | wait (i : Slot) : MainLocal t (.bgfgWait i) (.waitfgTest .doBgfg (t.jobs i).pid)
  | bgfgReturn (i : Slot) : MainLocal t (.bgfgPrint i) .top
  | again (caller : Caller) (pid : Pid) : pid = fgpid t →
      MainLocal t (.waitfgTest caller pid) (.waitfgSuspend caller pid)
  | leave (caller : Caller) (pid : Pid) : pid ≠ fgpid t →
      MainLocal t (.waitfgTest caller pid) (.waitfgUnmask caller pid)
  | suspend (caller : Caller) (pid : Pid) (old : SigSet) :
      MainLocal t (.waitfgSuspend caller pid) (.waitfgSleep caller pid old)
  | evalDone (pid : Pid) : MainLocal t (.waitfgUnmask .eval pid) (.evalReturn false pid)
  | bgfgDone (pid : Pid) : MainLocal t (.waitfgUnmask .doBgfg pid) .top

/-- Steps of `sigchld_handler` that change neither the table nor the children. -/
inductive ChldLocal (t : JobTable) : ChldPc → ChldPc → Prop where
  | block (pid : Pid) (prev : SigSet) :
      ChldLocal t (.reported .exited pid) (.masked .exited pid none prev)
  | lookup (how : Report) (pid : Pid) : how ≠ .exited →
      ChldLocal t (.reported how pid) (.found how pid (getjobpid t pid))
  | print (how : Report) (pid : Pid) (i : Slot) :
      ChldLocal t (.found how pid (some i)) (.printed how pid i)
  | blockAll (how : Report) (pid : Pid) (i : Slot) (prev : SigSet) :
      ChldLocal t (.printed how pid i) (.masked how pid (some i) prev)
  | unblock (prev : SigSet) : ChldLocal t (.updated prev) .wait

/-- The next step of `sigchld_handler` dereferences a NULL `job_ptr`. -/
def ChldPc.null : ChldPc → Bool
  | .found _ _ none | .masked .stopped _ none _ => true
  | _ => false

/-- The moves of the abstract model. -/
inductive Move : View → Act → View → Prop where
  | quiet (v : View) (a : Act) : Move v a v
  | raise (v : View) : Move v .other { v with sigchld := true }
  | child (v : View) (pid : Pid) (ev : ChildEvent) (c c' : Proc) :
      v.procs.lookup pid = some c → ev.apply c = some c' →
      Move v .other { v with
        procs := setProc v.procs pid c', sigchld := v.sigchld || ev.notifies }
  | join (v : View) (pid : Pid) : Move v .other { v with helpers := insert pid v.helpers }
  | leave (v : View) (pid : Pid) : Move v (.leave pid) { v with helpers := v.helpers.erase pid }
  | wake (v : View) : Move v .other { v with main := v.main.wake }
  | enter (v : View) : v.chld = none → v.main.critical = false →
      Move v .other { v with main := v.main.wake, chld := some .wait, sigchld := false }
  | reap (v : View) (how : Report) (pid : Pid) (c : Proc) : v.chld = some .wait →
      v.procs.lookup pid = some c → c.status.report = some how →
      Move v (.reap how pid) { v with
        procs := reap v.procs pid how, chld := some (.reported how pid) }
  | drained (v : View) : v.chld = some .wait →
      (∀ p c, v.procs.lookup p = some c → c.status.report = none) →
      Move v .other { v with chld := some .return }
  | handler (v : View) (pc pc' : ChldPc) : v.chld = some pc → ChldLocal v.table pc pc' →
      Move v .other { v with chld := some pc' }
  | delete (v : View) (how : Report) (pid : Pid) (i : Option Slot) (prev : SigSet) :
      v.chld = some (.masked how pid i prev) → how.terminal = true →
      Move v (.update how pid) { v with
        table := (deletejob v.table pid).2, chld := some (.updated prev) }
  | stop (v : View) (pid : Pid) (i : Slot) (prev : SigSet) :
      v.chld = some (.masked .stopped pid (some i) prev) →
      Move v (.update .stopped pid) { v with
        table := v.table.setState i .ST, chld := some (.updated prev) }
  | crash (v : View) (a : Act) (pc : ChldPc) : v.chld = some pc → pc.null = true →
      Move v a { v with crashed := true }
  | chldReturn (v : View) : v.chld = some .return → Move v .other { v with chld := none }
  | readFg (v : View) : Move v .readFg { v with held := fgpid v.table :: v.held }
  | drop (v : View) (a : Act) (pid : Pid) (held : List Pid) : v.held = pid :: held →
      Move v a { v with held := held }
  | main (v : View) (m : MainPc) : v.chld = none → MainLocal v.table v.main m →
      Move v .other { v with main := m }
  | fork (v : View) (bg : Bool) (cmdline : CStr) (prev : SigSet) (pid : Pid) :
      v.chld = none → v.main = .evalFork bg cmdline prev → 1 < pid → pid ∉ v.procs →
      Move v .other { v with
        main := .evalForked bg cmdline pid prev, procs := v.procs.insert pid ⟨.running, false⟩ }
  | addjob (v : View) (bg : Bool) (cmdline : CStr) (pid : Pid) (prev : SigSet) :
      v.chld = none → v.main = .evalAdd bg cmdline pid prev →
      Move v (.addjob bg pid) { v with
        table := (addjob v.table pid (if bg then .BG else .FG) cmdline).2
        main := if bg then .evalUnblock cmdline pid prev else .waitfgTest .eval pid }
  | cont (v : View) (fg : Bool) (i : Slot) : v.chld = none → v.main = .bgfgKill fg i →
      Move v .other { v with
        main := .bgfgStore fg i, procs := sigcont v.procs (v.table.jobs i).pid }
  | store (v : View) (fg : Bool) (i : Slot) : v.chld = none → v.main = .bgfgStore fg i →
      Move v (.store fg i) { v with
        table := v.table.setState i (if fg then .FG else .BG)
        main := if fg then .bgfgWait i else .bgfgPrint i }

/-! ## Section 3: Every step is a move -/

/-- An exit is not a crash. -/
theorem view_exit {s : State} (hh : s.halted = none) (code : Nat) :
    State.view { s with halted := some (.exited code) } = s.view := by
  simp [State.view, hh]

theorem mainStep_move {s s' : State} (hf : s.frames = []) (h : mainStep s = some s') :
    Move s.view (s.act .run) s'.view := by
  obtain ⟨table, main, frames, blocked, pending, procs, helpers, halted⟩ := s
  obtain rfl : frames = [] := hf
  cases main <;> simp only [mainStep] at h
  case top | evalFork | waitfgSleep => cases h
  -- the three accesses to shared data
  case evalAdd bg cmdline pid prevOne =>
    obtain rfl := Option.some.inj h
    exact .addjob _ bg cmdline pid prevOne rfl rfl
  case bgfgKill fg jobPtr =>
    obtain rfl := Option.some.inj h
    exact .cont _ fg jobPtr rfl rfl
  case bgfgStore fg jobPtr =>
    obtain rfl := Option.some.inj h
    exact .store _ fg jobPtr rfl rfl
  -- the steps with a choice, and then those that only move on
  case bgfgLookup argv0 argv1 =>
    cases hjob : bgfgJob table argv0 argv1 <;> rw [hjob] at h <;> obtain rfl := Option.some.inj h
    · exact .main _ _ rfl (.noJob _ _)
    · exact .main _ _ rfl (.job _ _ _ _ hjob)
  case waitfgTest caller pid =>
    split at h <;> obtain rfl := Option.some.inj h
    · next heq => exact .main _ _ rfl (.again _ _ heq)
    · next hne => exact .main _ _ rfl (.leave _ _ hne)
  case waitfgUnmask caller pid =>
    obtain rfl := Option.some.inj h
    cases caller with
    | eval => exact .main _ _ rfl (.evalDone _)
    | doBgfg => exact .main _ _ rfl (.bgfgDone _)
  all_goals
    obtain rfl := Option.some.inj h
    exact .main _ _ rfl (by constructor)

theorem frameStep_move {s s' : State} {f : Frame} {fs : List Frame} (hh : s.halted = none)
    (hf : s.frames = f :: fs) (hone : f.chld? ≠ none → chldOf fs = none)
    (h : frameStep s f fs = some s') :
    Move s.view (s.act .run) s'.view := by
  obtain ⟨table, main, frames, blocked, pending, procs, helpers, halted⟩ := s
  obtain ⟨pc, saved⟩ := f
  obtain rfl : frames = ⟨pc, saved⟩ :: fs := hf
  obtain rfl : halted = none := hh
  cases pc with
  | termReturn =>
    obtain rfl := Option.some.inj h
    exact .quiet _ _
  | termRead sig =>
    obtain rfl := Option.some.inj h
    exact .readFg _
  | termKill sig pid =>
    simp only [frameStep] at h
    split at h <;> obtain rfl := Option.some.inj h
    · exact .quiet _ _
    · exact .drop _ _ pid _ rfl
  | quit =>
    obtain rfl := Option.some.inj h
    exact .quiet _ _
  | chld pc =>
    obtain ⟨rfl, rfl⟩ | ⟨pc', s₁, hstep, rfl⟩ := frameStep_chld h
    · -- there is no second activation below
      have hnone : chldOf fs = none := hone fun hne => by cases hne
      have hview : State.view ⟨table, main, fs, saved, pending, procs, helpers, none⟩ =
          { State.view ⟨table, main, ⟨.chld .return, saved⟩ :: fs, blocked, pending, procs, helpers,
              none⟩ with chld := none } := by
        simp [State.view, hnone, heldOf_cons, Frame.held?]
      rw [hview]
      exact .chldReturn _ rfl
    cases hstep with
    | drained hall =>
      refine .drained _ rfl fun p c hc => ?_
      simpa using AList.all_iff.mp hall p c hc
    | block pid => exact .handler _ _ _ rfl (.block pid _)
    | lookup how pid hne => exact .handler _ _ _ rfl (.lookup how pid hne)
    | print how pid i => exact .handler _ _ _ rfl (.print how pid i)
    | blockAll how pid i => exact .handler _ _ _ rfl (.blockAll how pid i _)
    | delete how pid jobPtr prevAll hterm => exact .delete _ how pid jobPtr prevAll rfl hterm
    | stop pid i prevAll => exact .stop _ pid i prevAll rfl
    | unblock prevAll => exact .handler _ _ _ rfl (.unblock prevAll)
    | nullPrint | nullStore => exact .crash _ _ _ rfl rfl

/-- A delivered signal wakes the main line, and its handler comes on top. -/
theorem interrupt_eq {s : State} (hm : MaskInv s.main s.frames s.blocked) (sig : Sig) :
    ∃ saved blocked, interrupt s sig = { s with
      main := s.main.wake
      frames := ⟨handler sig, saved⟩ :: s.frames
      blocked := blocked
      pending := s.pending.erase sig } := by
  unfold interrupt
  split
  · next caller pid old hmain hf => exact ⟨old, _, by rw [hmain, hf]; rfl⟩
  · next hnot =>
    -- `waitfg` is not asleep: it would have been interrupted as above
    have hwake : s.main.wake = s.main := by
      cases hmain : s.main with
      | waitfgSleep caller pid old =>
        exact absurd (hm.asleep (by rw [hmain]; rfl)) (hnot caller pid old hmain)
      | _ => rfl
    exact ⟨s.blocked, _, by rw [hwake]⟩

theorem interrupt_move {s : State} {sig : Sig} (hm : MaskInv s.main s.frames s.blocked)
    (hsig : sig ∉ s.blocked) : Move s.view .other (interrupt s sig).view := by
  obtain ⟨saved, blocked, heq⟩ := interrupt_eq hm sig
  rw [heq]
  cases sig with
  | SIGCHLD =>
    have hnone : s.view.chld = none := hm.guarded.none_of_unblocked hsig
    have hcrit : s.main.critical = false := by
      -- SIGCHLD is blocked at the critical points
      by_contra hne
      exact hsig (hm.excluded (by simpa using hne)).1
    have hmove := Move.enter s.view hnone hcrit
    simpa [State.view, handler, chldOf_cons, Frame.chld?, heldOf_cons, Frame.held?] using hmove
  | SIGINT | SIGTSTP | SIGQUIT =>
    have hmove := Move.wake s.view
    simpa [State.view, handler, chldOf_cons, Frame.chld?, heldOf_cons, Frame.held?] using hmove

/-- Every step of the shell is a move of the abstract model. -/
theorem step_move {s s' : State} {l : Label} (hm : MaskInv s.main s.frames s.blocked)
    (h : step s l = some s') : Move s.view (s.act l) s'.view := by
  obtain ⟨hh, hstep⟩ := step_cases h
  cases hstep with
  | child pid ev c c' hc hev =>
    have hmove := Move.child s.view pid ev c c' hc hev
    cases ev <;> simpa [State.view, State.act, ChildEvent.notifies] using hmove
  | join pid => exact .join _ pid
  | leave pid => exact .leave _ pid
  | raise sig =>
    -- the view only sees whether SIGCHLD is pending
    by_cases hsig : sig = .SIGCHLD
    · subst hsig
      have hmove := Move.raise s.view
      simpa [State.view, State.act] using hmove
    · have hview : State.view { s with pending := insert sig s.pending } = s.view := by
        simp [State.view, Finset.mem_insert, Ne.symm hsig]
      rw [hview]
      exact .quiet _ _
  | deliver sig _ hblocked => exact interrupt_move hm hblocked
  | readLine cmdline _ hf hmain hread =>
    have hnone : s.view.chld = none := by simp [State.view, hf]
    have hline : ∀ m, MainLocal s.table .top m → Move s.view .other { s.view with main := m } := by
      intro m hloc
      exact .main _ _ hnone (by rw [← hmain] at hloc; exact hloc)
    rcases evalLine_cases hread with rfl | rfl | ⟨bg, rfl⟩ | ⟨argv0, argv1, rfl⟩
    · exact .quiet _ _
    · rw [view_exit hh]
      exact .quiet _ _
    · exact hline _ (.line bg cmdline)
    · exact hline _ (.builtin argv0 argv1)
  | readEnd | forkFail =>
    rw [view_exit hh]
    exact .quiet _ _
  | fork pid bg cmdline prevOne hf hmain hlt hproc =>
    exact .fork s.view bg cmdline prevOne pid (by simp [State.view, hf]) hmain hlt hproc
  | waitpid pid how c saved fs hf hc hrep =>
    have hwait : s.view.chld = some .wait := by rw [State.view, hf]; rfl
    have hmove := Move.reap s.view how pid c hwait hc hrep
    have hact : s.act (.waitpid pid) = .reap how pid := by simp [State.act, hc, hrep]
    rw [hact]
    simpa [State.view, hf, heldOf_cons, Frame.held?, chldOf_cons, Frame.chld?] using hmove
  | main _ hf hmain => exact mainStep_move hf hmain
  | frame f fs _ hf hframe =>
    rw [hf] at hm
    exact frameStep_move hh hf hm.guarded.2.1 hframe

/-- The abstraction of the shell by its views. -/
def shell_abstraction : LTS.Abstraction shell View Act where
  view := State.view
  act := State.act
  Move := Move
  sound := fun hr hs => step_move (reachable_mask hr) hs

end Shell
