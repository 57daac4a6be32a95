import CsappExperiments.Framework.System
import CsappExperiments.Framework.KeyedTable
import CsappExperiments.ShellLab.CommandLine

/-! # Shell Lab: the shell as a transition system

    `tsh.c` is a single thread whose main line can be interrupted by signal
    handlers, and its children run concurrently with it. A state consists of

    * the globals `jobs` and `nextjid` (`table`);
    * the point the main line has reached (`main`), and the stack of handler
      activations that interrupt it (`frames`, innermost first). Whatever is
      on top of the stack executes;
    * the blocked and the pending signals of the shell process;
    * the kernel's record of the children (`procs`) and of the process groups
      that have a member besides their leader (`helpers`).

    One step is one access to shared data, one system call, or one event
    outside the shell: a child changes state, a signal is raised, a pending
    unblocked signal is delivered. Any order of steps is a run. Stopped jobs
    are continued by `do_bgfg` only.
-/

open CLib

namespace Shell

/-! ## Section 1: Signals -/

inductive Sig where
  | SIGINT
  | SIGTSTP
  | SIGCHLD
  | SIGQUIT
  deriving DecidableEq

/-- The signals that have a handler, as `sigfillset` sets them. -/
instance : Fintype Sig where
  elems := {.SIGINT, .SIGTSTP, .SIGCHLD, .SIGQUIT}
  complete := fun sig => by cases sig <;> decide

/-- `sigset_t`. -/
abbrev SigSet : Type := Finset Sig

/-! ## Section 2: Children -/

inductive Status where
  | running
  /-- Stopped; `reported` once `waitpid` has said so. -/
  | stopped (reported : Bool)
  /-- Terminated normally, not yet reaped. -/
  | exited
  /-- Terminated by a signal, not yet reaped. -/
  | signaled
  deriving DecidableEq

/-- A child of the shell. It is in the shell's process group until it has
    run `setpgid(0, 0)`, and then in the group that has its own pid. -/
structure Proc where
  status : Status
  grouped : Bool
  deriving DecidableEq

/-- The children that have not been reaped. -/
abbrev ProcTable : Type := AList fun _ : Pid => Proc

/-- Overwrite the entry of `pid`, if it has one. -/
def setProc (procs : ProcTable) (pid : Pid) (c : Proc) : ProcTable :=
  procs.mapVals fun q d => if q = pid then c else d

/-- What `waitpid` reports about a child. -/
inductive Report where
  | exited
  | signaled
  | stopped
  deriving DecidableEq

/-- Is the report about a child that is gone (and reaped by the report)? -/
def Report.terminal : Report → Bool
  | .exited | .signaled => true
  | .stopped => false

theorem Report.eq_stopped {how : Report} (h : how.terminal = false) : how = .stopped := by
  cases how with
  | exited | signaled => cases h
  | stopped => rfl

/-- The report that `waitpid(-1, &status, WNOHANG | WUNTRACED)` can make. -/
def Status.report : Status → Option Report
  | .running | .stopped true => none
  | .stopped false => some .stopped
  | .exited => some .exited
  | .signaled => some .signaled

/-- The table after `waitpid` has reported `how` about `pid`. -/
def reap (procs : ProcTable) (pid : Pid) (how : Report) : ProcTable :=
  if how.terminal then procs.erase pid
  else procs.mapVals fun q c => if q = pid then { c with status := .stopped true } else c

/-- What can happen to a child. -/
inductive ChildEvent where
  | setpgid
  | exit
  | kill
  | stop
  deriving DecidableEq

def ChildEvent.apply (ev : ChildEvent) (c : Proc) : Option Proc :=
  match ev, c.status with
  | .setpgid, .running => some { c with grouped := true }
  | .exit, .running => some { c with status := .exited }
  | .kill, .running => some { c with status := .signaled }
  | .kill, .stopped _ => some { c with status := .signaled }
  | .stop, .running => some { c with status := .stopped false }
  | _, _ => none

/-- Does the event send SIGCHLD to the shell? -/
def ChildEvent.notifies : ChildEvent → Bool
  | .setpgid => false
  | .exit | .kill | .stop => true

/-- Does SIGCONT sent by `kill(-pid, SIGCONT)` reach child `q`? `kill(0, _)`
    signals the shell's own process group. -/
def inGroup (pid q : Pid) (c : Proc) : Bool :=
  if pid = 0 then !c.grouped else q = pid && c.grouped

/-- SIGCONT makes a stopped process run; an unreported stop is forgotten. -/
def Proc.cont (c : Proc) : Proc :=
  match c.status with
  | .stopped _ => { c with status := .running }
  | _ => c

/-- The effect of `kill(-pid, SIGCONT)` on the children. -/
def sigcont (procs : ProcTable) (pid : Pid) : ProcTable :=
  procs.mapVals fun q c => if inGroup pid q c then c.cont else c

/-! ### What the kernel operations do to one child -/

@[simp] theorem lookup_setProc_self (procs : ProcTable) (pid : Pid) (c : Proc) :
    (setProc procs pid c).lookup pid = (procs.lookup pid).map fun _ => c := by
  simp [setProc]

@[simp] theorem lookup_setProc_ne (procs : ProcTable) {pid q : Pid} (c : Proc) (h : q ≠ pid) :
    (setProc procs pid c).lookup q = procs.lookup q := by
  simp [setProc, h]

@[simp] theorem mem_setProc {procs : ProcTable} {pid q : Pid} {c : Proc} :
    q ∈ setProc procs pid c ↔ q ∈ procs := AList.mem_mapVals

@[simp] theorem mem_sigcont {procs : ProcTable} {pid q : Pid} :
    q ∈ sigcont procs pid ↔ q ∈ procs := AList.mem_mapVals

@[simp] theorem lookup_reap_ne (procs : ProcTable) {pid q : Pid} (how : Report) (h : q ≠ pid) :
    (reap procs pid how).lookup q = procs.lookup q := by
  unfold reap
  split
  · exact AList.lookup_erase_ne h
  · simp [h]

/-- A reported stop stays in the table, as reported. -/
theorem lookup_reap_stopped (procs : ProcTable) (pid : Pid) :
    (reap procs pid .stopped).lookup pid =
      (procs.lookup pid).map fun c => { c with status := .stopped true } := by
  simp [reap, Report.terminal]

/-- The end of a child takes it out of the table. -/
theorem notMem_reap {procs : ProcTable} {pid : Pid} {how : Report} (h : how.terminal = true) :
    pid ∉ reap procs pid how := by
  simp [reap, h, AList.mem_erase]

theorem mem_of_mem_reap {procs : ProcTable} {pid q : Pid} {how : Report}
    (h : q ∈ reap procs pid how) : q ∈ procs := by
  unfold reap at h
  split at h
  · exact (AList.mem_erase.mp h).2
  · exact AList.mem_mapVals.mp h

theorem mem_reap_ne {procs : ProcTable} {pid q : Pid} {how : Report} (hne : q ≠ pid)
    (h : q ∈ procs) : q ∈ reap procs pid how := by
  rw [← AList.lookup_isSome, lookup_reap_ne procs how hne, AList.lookup_isSome]
  exact h

/-- An event either only moves a running child to its own group, or notifies
    the shell and leaves the child neither running nor with a stop reported. -/
theorem ChildEvent.apply_spec {ev : ChildEvent} {c c' : Proc} (h : ev.apply c = some c') :
    (ev.notifies = false ∧ c.status = .running ∧ c'.status = .running) ∨
      (ev.notifies = true ∧ c'.status ≠ .running ∧ c'.status ≠ .stopped true) := by
  obtain ⟨status, grouped⟩ := c
  cases ev <;> cases status <;> simp only [ChildEvent.apply] at h <;> cases h <;>
    simp [ChildEvent.notifies]

/-- SIGCONT leaves no reported stop and makes no child reportable. -/
theorem cont_report {c : Proc} (h : c.status.report = none) : c.cont.status.report = none := by
  obtain ⟨status, grouped⟩ := c
  cases status <;> simp_all [Proc.cont, Status.report]

/-! ## Section 3: Program points -/

/-- Who called `waitfg`. -/
inductive Caller where
  | eval
  | doBgfg
  deriving DecidableEq

/-- The next action of the main line. -/
inductive MainPc where
  /-- Top of the read/eval loop. -/
  | top
  /-- `eval`: block SIGCHLD. -/
  | evalBlock (bg : Bool) (cmdline : CStr)
  /-- `eval`: `Fork`. -/
  | evalFork (bg : Bool) (cmdline : CStr) (prevOne : SigSet)
  /-- `eval`, parent: block all signals. -/
  | evalForked (bg : Bool) (cmdline : CStr) (pid : Pid) (prevOne : SigSet)
  /-- `eval`: `addjob`. -/
  | evalAdd (bg : Bool) (cmdline : CStr) (pid : Pid) (prevOne : SigSet)
  /-- `eval`, background: restore the mask. -/
  | evalUnblock (cmdline : CStr) (pid : Pid) (prevOne : SigSet)
  /-- `eval`, background: print the job. -/
  | evalPrint (cmdline : CStr) (pid : Pid)
  /-- `eval`: return, having forked `pid`. -/
  | evalReturn (bg : Bool) (pid : Pid)
  /-- `do_bgfg`: decode the argument and look the job up. -/
  | bgfgLookup (argv0 : CStr) (argv1 : Option CStr)
  /-- `do_bgfg`: `kill(-(job_ptr->pid), SIGCONT)`. -/
  | bgfgKill (fg : Bool) (jobPtr : Slot)
  /-- `do_bgfg`: `job_ptr->state = FG` or `BG`. -/
  | bgfgStore (fg : Bool) (jobPtr : Slot)
  /-- `do_bgfg`, fg: `waitfg(job_ptr->pid)`. -/
  | bgfgWait (jobPtr : Slot)
  /-- `do_bgfg`, bg: print the job. -/
  | bgfgPrint (jobPtr : Slot)
  /-- `waitfg`: the test `pid == fgpid(jobs)`. -/
  | waitfgTest (caller : Caller) (pid : Pid)
  /-- `waitfg`: call `sigsuspend`. -/
  | waitfgSuspend (caller : Caller) (pid : Pid)
  /-- `waitfg`: asleep in `sigsuspend`, which restores `old` when it returns. -/
  | waitfgSleep (caller : Caller) (pid : Pid) (old : SigSet)
  /-- `waitfg`: `sigprocmask(SIG_SETMASK, &mask, NULL)` after the loop. -/
  | waitfgUnmask (caller : Caller) (pid : Pid)
  deriving DecidableEq

/-- The next action of `sigchld_handler`. -/
inductive ChldPc where
  /-- `waitpid`. -/
  | wait
  /-- A report has come: look the job up, or (if it exited) block all signals. -/
  | reported (how : Report) (pid : Pid)
  /-- Print `job_ptr->jid` and `job_ptr->pid`. -/
  | found (how : Report) (pid : Pid) (jobPtr : Option Slot)
  /-- Block all signals. -/
  | printed (how : Report) (pid : Pid) (jobPtr : Slot)
  /-- `deletejob(jobs, pid)` or `job_ptr->state = ST`. -/
  | masked (how : Report) (pid : Pid) (jobPtr : Option Slot) (prevAll : SigSet)
  /-- Restore the mask. -/
  | updated (prevAll : SigSet)
  /-- `waitpid` has found nothing more: return. -/
  | return
  deriving DecidableEq

/-- The next action of a signal handler. `sig` is SIGINT or SIGTSTP. -/
inductive HandlerPc where
  | chld (pc : ChldPc)
  /-- `sigint_handler`, `sigtstp_handler`: read `fgpid(jobs)`. -/
  | termRead (sig : Sig)
  /-- `sigint_handler`, `sigtstp_handler`: `kill(-pid, sig)`. -/
  | termKill (sig : Sig) (pid : Pid)
  | termReturn
  | quit
  deriving DecidableEq

/-- A handler activation; `saved` is the mask that its return restores. -/
structure Frame where
  pc : HandlerPc
  saved : SigSet
  deriving DecidableEq

/-- Where the handler of a signal starts. -/
def handler : Sig → HandlerPc
  | .SIGCHLD => .chld .wait
  | .SIGINT => .termRead .SIGINT
  | .SIGTSTP => .termRead .SIGTSTP
  | .SIGQUIT => .quit

/-! ## Section 4: States and labels -/

/-- How the shell process ended. -/
inductive Halt where
  | exited (code : Nat)
  /-- A NULL pointer was dereferenced. -/
  | crashed
  deriving DecidableEq

structure State where
  table : JobTable
  main : MainPc
  frames : List Frame
  blocked : SigSet
  pending : SigSet
  procs : ProcTable
  helpers : Finset Pid
  halted : Option Halt

/-- The shell after `initjobs`, with no signal blocked. -/
def initial : State where
  table := initjobs
  main := .top
  frames := []
  blocked := ∅
  pending := ∅
  procs := ∅
  helpers := ∅
  halted := none

inductive Label where
  /-- A child changes state. -/
  | child (pid : Pid) (ev : ChildEvent)
  /-- A process joins the group of `pid` (a member of it forks). -/
  | join (pid : Pid)
  /-- The last member of the group of `pid` besides its leader is gone. -/
  | leave (pid : Pid)
  /-- A signal is sent to the shell (typed, or by any process). -/
  | raise (sig : Sig)
  /-- A pending unblocked signal is delivered. -/
  | deliver (sig : Sig)
  /-- `fgets` reads a command line. -/
  | readLine (cmdline : CStr)
  /-- `fgets` reports the end of the input, or an error. -/
  | readEnd (error : Bool)
  /-- `fork` returns `pid` in the parent. -/
  | fork (pid : Pid)
  /-- `fork` fails. -/
  | forkFail
  /-- `waitpid` reports a child. -/
  | waitpid (pid : Pid)
  /-- Any other step of the code on top of the stack. -/
  | run
  deriving DecidableEq

/-! ## Section 5: Steps -/

/-- Does the process group `pid` have a member that has not been reaped? -/
def groupExists (s : State) (pid : Pid) : Bool :=
  (s.procs.lookup pid).any (·.grouped) || pid ∈ s.helpers

/-- `eval` with a line that has been read, up to the call of `fork`. -/
def evalLine (s : State) (cmdline : CStr) : Option State :=
  match parseline cmdline with
  | none => none
  | some (_, []) => some s
  | some (bg, argv0 :: args) =>
    match builtinCmd argv0 with
    | some .quit => some { s with halted := some (.exited 0) }
    | some .jobs => some s
    | some .amp => some s
    | some .bgfg => some { s with main := .bgfgLookup argv0 args.head? }
    | none => some { s with main := .evalBlock bg cmdline }

/-- A step of the main line that has no choice in it. -/
def mainStep (s : State) : Option State :=
  match s.main with
  | .top => none
  | .evalBlock bg cmdline =>
    -- sigprocmask(SIG_BLOCK, &mask_one, &prev_one)
    some { s with main := .evalFork bg cmdline s.blocked, blocked := insert .SIGCHLD s.blocked }
  | .evalFork .. => none
  | .evalForked bg cmdline pid prevOne =>
    -- sigprocmask(SIG_BLOCK, &mask_all, NULL)
    some { s with main := .evalAdd bg cmdline pid prevOne, blocked := Finset.univ }
  | .evalAdd bg cmdline pid prevOne =>
    -- whether the job was added is not looked at
    let state := if bg then .BG else .FG
    some { s with
      table := (addjob s.table pid state cmdline).2
      main := if bg then .evalUnblock cmdline pid prevOne else .waitfgTest .eval pid }
  | .evalUnblock cmdline pid prevOne =>
    some { s with main := .evalPrint cmdline pid, blocked := prevOne }
  | .evalPrint _ pid => some { s with main := .evalReturn true pid }
  | .evalReturn .. => some { s with main := .top }
  | .bgfgLookup argv0 argv1 =>
    match bgfgJob s.table argv0 argv1 with
    | .error _ => some { s with main := .top }
    | .ok jobPtr => some { s with main := .bgfgKill (argv0 = ['f', 'g']) jobPtr }
  | .bgfgKill fg jobPtr =>
    -- the slot may have been cleared by now; the result of kill is ignored
    some { s with
      main := .bgfgStore fg jobPtr
      procs := sigcont s.procs (s.table.jobs jobPtr).pid }
  | .bgfgStore fg jobPtr =>
    some { s with
      table := s.table.setState jobPtr (if fg then .FG else .BG)
      main := if fg then .bgfgWait jobPtr else .bgfgPrint jobPtr }
  | .bgfgWait jobPtr => some { s with main := .waitfgTest .doBgfg (s.table.jobs jobPtr).pid }
  | .bgfgPrint _ => some { s with main := .top }
  | .waitfgTest caller pid =>
    if pid = fgpid s.table then some { s with main := .waitfgSuspend caller pid }
    else some { s with main := .waitfgUnmask caller pid }
  | .waitfgSuspend caller pid =>
    -- sigsuspend replaces the mask by the empty one and saves the old one
    some { s with main := .waitfgSleep caller pid s.blocked, blocked := ∅ }
  | .waitfgSleep .. => none
  | .waitfgUnmask caller pid =>
    -- the mask is emptied, not restored
    let main := match caller with
      | .eval => .evalReturn false pid
      | .doBgfg => .top
    some { s with main := main, blocked := ∅ }

/-- The part of the state that a step of `sigchld_handler` can change besides
    its own program point. -/
def chldStep (s : State) (pc : ChldPc) : Option (ChldPc × State) :=
  match pc with
  | .wait => if s.procs.all fun _ c => c.status.report = none then some (.return, s) else none
  | .reported .exited pid =>
    -- WIFEXITED: the job is not looked up
    some (.masked .exited pid none s.blocked, { s with blocked := Finset.univ })
  | .reported how pid => some (.found how pid (getjobpid s.table pid), s)
  | .found how pid (some jobPtr) => some (.printed how pid jobPtr, s)
  | .found how pid none =>
    -- job_ptr->jid with job_ptr == NULL
    some (.found how pid none, { s with halted := some .crashed })
  | .printed how pid jobPtr =>
    some (.masked how pid (some jobPtr) s.blocked, { s with blocked := Finset.univ })
  | .masked .stopped _ (some jobPtr) prevAll =>
    some (.updated prevAll, { s with table := s.table.setState jobPtr .ST })
  | .masked .stopped pid none prevAll =>
    some (.masked .stopped pid none prevAll, { s with halted := some .crashed })
  | .masked _ pid _ prevAll =>
    some (.updated prevAll, { s with table := (deletejob s.table pid).2 })
  | .updated prevAll => some (.wait, { s with blocked := prevAll })  -- the loop calls waitpid again
  | .return => none

/-- The test before `kill` in `sigint_handler` and `sigtstp_handler`. -/
def termGuard (sig : Sig) (pid : Pid) : Bool :=
  if sig = .SIGTSTP then -pid ≠ 0 else pid ≠ 0

/-- A step of the handler activation `f` on top of the stack `f :: fs`. -/
def frameStep (s : State) (f : Frame) (fs : List Frame) : Option State :=
  match f.pc with
  | .chld .return | .termReturn => some { s with frames := fs, blocked := f.saved }
  | .chld pc =>
    (chldStep s pc).map fun (pc', s') => { s' with frames := { f with pc := .chld pc' } :: fs }
  | .termRead sig =>
    some { s with frames := { f with pc := .termKill sig (fgpid s.table) } :: fs }
  | .termKill sig pid =>
    -- a failing kill reaches unix_error, which exits
    if termGuard sig pid && !groupExists s pid then some { s with halted := some (.exited 1) }
    else some { s with frames := { f with pc := .termReturn } :: fs }
  | .quit => some { s with halted := some (.exited 1) }

/-- Interrupt the code on top of the stack by the handler of `sig`. A
    sleeping `sigsuspend` returns once the handler does, to the mask it saved. -/
def interrupt (s : State) (sig : Sig) : State :=
  let blocked := insert sig s.blocked
  let pending := s.pending.erase sig
  match s.main, s.frames with
  | .waitfgSleep caller pid old, [] =>
    { s with
      main := .waitfgTest caller pid
      frames := [⟨handler sig, old⟩]
      blocked := blocked
      pending := pending }
  | _, fs =>
    { s with frames := ⟨handler sig, s.blocked⟩ :: fs, blocked := blocked, pending := pending }

/-- The step function of the shell and its surroundings. -/
def step (s : State) (l : Label) : Option State :=
  if s.halted.isSome then none
  else
    match l with
    | .child pid ev =>
      match (s.procs.lookup pid).bind ev.apply with
      | none => none
      | some c =>
        some { s with
          procs := setProc s.procs pid c
          pending := if ev.notifies then insert .SIGCHLD s.pending else s.pending }
    | .join pid =>
      if (s.procs.lookup pid).any (fun c => c.status = .running && c.grouped) || pid ∈ s.helpers
      then some { s with helpers := insert pid s.helpers } else none
    | .leave pid => some { s with helpers := s.helpers.erase pid }
    | .raise sig => some { s with pending := insert sig s.pending }
    | .deliver sig =>
      if sig ∈ s.pending ∧ sig ∉ s.blocked then some (interrupt s sig) else none
    | .readLine cmdline =>
      if s.frames = [] ∧ s.main = .top then evalLine s cmdline else none
    | .readEnd error =>
      if s.frames = [] ∧ s.main = .top then
        some { s with halted := some (.exited (if error then 1 else 0)) }
      else none
    | .fork pid =>
      match s.frames, s.main with
      | [], .evalFork bg cmdline prevOne =>
        -- the kernel does not hand out a pid that is still in use
        if 1 < pid ∧ pid ∉ s.procs ∧ pid ∉ s.helpers then
          some { s with
            main := .evalForked bg cmdline pid prevOne
            procs := s.procs.insert pid ⟨.running, false⟩ }
        else none
      | _, _ => none
    | .forkFail =>
      match s.frames, s.main with
      | [], .evalFork .. => some { s with halted := some (.exited 1) }
      | _, _ => none
    | .waitpid pid =>
      match s.frames with
      | ⟨.chld .wait, saved⟩ :: fs =>
        match (s.procs.lookup pid).bind (·.status.report) with
        | none => none
        | some how =>
          some { s with
            frames := ⟨.chld (.reported how pid), saved⟩ :: fs
            procs := reap s.procs pid how }
      | _ => none
    | .run =>
      match s.frames with
      | [] => mainStep s
      | f :: fs => frameStep s f fs

/-- What a step does, label by label. -/
inductive Stepped (s : State) : Label → State → Prop where
  | child (pid : Pid) (ev : ChildEvent) (c c' : Proc) :
    s.procs.lookup pid = some c → ev.apply c = some c' →
      Stepped s (.child pid ev) { s with
        procs := setProc s.procs pid c'
        pending := if ev.notifies then insert .SIGCHLD s.pending else s.pending }
  | join (pid : Pid) :
      ((s.procs.lookup pid).any (fun c => c.status = .running && c.grouped) ||
        pid ∈ s.helpers) = true →
      Stepped s (.join pid) { s with helpers := insert pid s.helpers }
  | leave (pid : Pid) : Stepped s (.leave pid) { s with helpers := s.helpers.erase pid }
  | raise (sig : Sig) : Stepped s (.raise sig) { s with pending := insert sig s.pending }
  | deliver (sig : Sig) :
    sig ∈ s.pending → sig ∉ s.blocked → Stepped s (.deliver sig) (interrupt s sig)
  | readLine (cmdline : CStr) (s' : State) :
    s.frames = [] → s.main = .top → evalLine s cmdline = some s' →
      Stepped s (.readLine cmdline) s'
  | readEnd (error : Bool) : s.frames = [] → s.main = .top →
      Stepped s (.readEnd error) { s with halted := some (.exited (if error then 1 else 0)) }
  | fork (pid : Pid) (bg : Bool) (cmdline : CStr) (prevOne : SigSet) : s.frames = [] →
      s.main = .evalFork bg cmdline prevOne → 1 < pid → pid ∉ s.procs → pid ∉ s.helpers →
      Stepped s (.fork pid) { s with
        main := .evalForked bg cmdline pid prevOne
        procs := s.procs.insert pid ⟨.running, false⟩ }
  | forkFail (bg : Bool) (cmdline : CStr) (prevOne : SigSet) :
    s.frames = [] → s.main = .evalFork bg cmdline prevOne →
      Stepped s .forkFail { s with halted := some (.exited 1) }
  | waitpid (pid : Pid) (how : Report) (c : Proc) (saved : SigSet) (fs : List Frame) :
      s.frames = ⟨.chld .wait, saved⟩ :: fs → s.procs.lookup pid = some c →
        c.status.report = some how →
      Stepped s (.waitpid pid) { s with
        frames := ⟨.chld (.reported how pid), saved⟩ :: fs
        procs := reap s.procs pid how }
  | main (s' : State) : s.frames = [] → mainStep s = some s' → Stepped s .run s'
  | frame (f : Frame) (fs : List Frame) (s' : State) :
    s.frames = f :: fs → frameStep s f fs = some s' →
      Stepped s .run s'

theorem step_cases {s s' : State} {l : Label} (h : step s l = some s') :
    s.halted = none ∧ Stepped s l s' := by
  unfold step at h
  split at h
  · cases h
  next hnot =>
  refine ⟨by simpa using hnot, ?_⟩
  cases l with
  | child pid ev =>
    dsimp only at h
    split at h
    · cases h
    · next c' hc =>
      obtain ⟨c, hc, hev⟩ := Option.bind_eq_some_iff.mp hc
      obtain rfl := Option.some.inj h
      exact .child pid ev c c' hc hev
  | join pid =>
    dsimp only at h
    split at h
    · next hcond =>
      obtain rfl := Option.some.inj h
      exact .join pid hcond
    · cases h
  | leave pid =>
    obtain rfl := Option.some.inj h
    exact .leave pid
  | raise sig =>
    obtain rfl := Option.some.inj h
    exact .raise sig
  | deliver sig =>
    dsimp only at h
    split at h
    · next hsig =>
      obtain rfl := Option.some.inj h
      exact .deliver sig hsig.1 hsig.2
    · cases h
  | readLine cmdline =>
    dsimp only at h
    split at h
    · next hcond => exact .readLine cmdline s' hcond.1 hcond.2 h
    · cases h
  | readEnd error =>
    dsimp only at h
    split at h
    · next hcond =>
      obtain rfl := Option.some.inj h
      exact .readEnd error hcond.1 hcond.2
    · cases h
  | fork pid =>
    dsimp only at h
    split at h
    · next bg cmdline prevOne hf hmain =>
      split at h
      · next hpid =>
        obtain rfl := Option.some.inj h
        exact .fork pid bg cmdline prevOne hf hmain hpid.1 hpid.2.1 hpid.2.2
      · cases h
    · cases h
  | forkFail =>
    dsimp only at h
    split at h
    · next bg cmdline prevOne hf hmain =>
      obtain rfl := Option.some.inj h
      exact .forkFail bg cmdline prevOne hf hmain
    · cases h
  | waitpid pid =>
    dsimp only at h
    split at h
    · next saved fs hf =>
      split at h
      · cases h
      · next how hhow =>
        obtain ⟨c, hc, hrep⟩ := Option.bind_eq_some_iff.mp hhow
        obtain rfl := Option.some.inj h
        exact .waitpid pid how c saved fs hf hc hrep
    · cases h
  | run =>
    dsimp only at h
    cases hf : s.frames with
    | nil =>
      rw [hf] at h
      exact .main s' hf h
    | cons f fs =>
      rw [hf] at h
      exact .frame f fs s' hf h

/-- What a step of `sigchld_handler` does, point by point. -/
inductive ChldStepped (s : State) : ChldPc → ChldPc → State → Prop where
  | drained : (s.procs.all fun _ c => c.status.report = none) = true → ChldStepped s .wait .return s
  | block (pid : Pid) :
      ChldStepped s (.reported .exited pid) (.masked .exited pid none s.blocked)
        { s with blocked := Finset.univ }
  | lookup (how : Report) (pid : Pid) : how ≠ .exited →
      ChldStepped s (.reported how pid) (.found how pid (getjobpid s.table pid)) s
  | print (how : Report) (pid : Pid) (jobPtr : Slot) :
      ChldStepped s (.found how pid (some jobPtr)) (.printed how pid jobPtr) s
  | blockAll (how : Report) (pid : Pid) (jobPtr : Slot) :
      ChldStepped s (.printed how pid jobPtr) (.masked how pid (some jobPtr) s.blocked)
        { s with blocked := Finset.univ }
  | delete (how : Report) (pid : Pid) (jobPtr : Option Slot) (prevAll : SigSet) :
    how.terminal = true →
      ChldStepped s (.masked how pid jobPtr prevAll) (.updated prevAll)
        { s with table := (deletejob s.table pid).2 }
  | stop (pid : Pid) (jobPtr : Slot) (prevAll : SigSet) :
      ChldStepped s (.masked .stopped pid (some jobPtr) prevAll) (.updated prevAll)
        { s with table := s.table.setState jobPtr .ST }
  | unblock (prevAll : SigSet) :
    ChldStepped s (.updated prevAll) .wait { s with blocked := prevAll }
  /-- `job_ptr` is NULL where its fields are printed. -/
  | nullPrint (how : Report) (pid : Pid) :
      ChldStepped s (.found how pid none) (.found how pid none) { s with halted := some .crashed }
  /-- `job_ptr` is NULL where its state is changed. -/
  | nullStore (pid : Pid) (prevAll : SigSet) :
      ChldStepped s (.masked .stopped pid none prevAll) (.masked .stopped pid none prevAll)
        { s with halted := some .crashed }

theorem chldStep_cases {s s' : State} {pc pc' : ChldPc} (h : chldStep s pc = some (pc', s')) :
    ChldStepped s pc pc' s' := by
  cases pc with
  | wait =>
    simp only [chldStep] at h
    split at h
    · next hall =>
      cases h
      exact .drained hall
    · cases h
  | reported how pid =>
    cases how with
    | exited =>
      cases h
      exact .block pid
    | signaled | stopped =>
      cases h
      exact .lookup _ pid (by decide)
  | found how pid jobPtr =>
    cases jobPtr with
    | none =>
      cases h
      exact .nullPrint how pid
    | some i =>
      cases h
      exact .print how pid i
  | printed how pid jobPtr =>
    cases h
    exact .blockAll how pid jobPtr
  | masked how pid jobPtr prevAll =>
    cases how with
    | exited | signaled =>
      cases h
      exact .delete _ pid jobPtr prevAll rfl
    | stopped =>
      cases jobPtr with
      | none =>
        cases h
        exact .nullStore pid prevAll
      | some i =>
        cases h
        exact .stop pid i prevAll
  | updated prevAll =>
    cases h
    exact .unblock prevAll
  | «return» => cases h

/-- `sigchld_handler` returns, or it moves on and stays on top of the stack. -/
theorem frameStep_chld {s s' : State} {pc : ChldPc} {saved : SigSet} {fs : List Frame}
    (h : frameStep s ⟨.chld pc, saved⟩ fs = some s') :
    pc = .return ∧ s' = { s with frames := fs, blocked := saved } ∨
      ∃ pc' s₁, ChldStepped s pc pc' s₁ ∧ s' = { s₁ with frames := ⟨.chld pc', saved⟩ :: fs } := by
  by_cases hpc : pc = .return
  · subst hpc
    exact .inl ⟨rfl, (Option.some.inj h).symm⟩
  · have hmap : frameStep s ⟨.chld pc, saved⟩ fs =
        (chldStep s pc).map fun (pc', s₁) => { s₁ with frames := ⟨.chld pc', saved⟩ :: fs } := by
      cases pc <;> first | rfl | exact absurd rfl hpc
    rw [hmap] at h
    obtain ⟨⟨pc', s₁⟩, hrun, heq⟩ := Option.map_eq_some_iff.mp h
    exact .inr ⟨pc', s₁, chldStep_cases hrun, heq.symm⟩

/-- The shell. -/
def shell : LTS.System State Label where
  init := initial
  step := step

/-! ## Section 6: Scripts -/

/-- One pass through `eval` for a background job. -/
def launchBg (pid : Pid) : List Label :=
  [.readLine "a &\n".toList, .run, .fork pid, .run, .run, .run, .run, .run]

/-- `eval` for a foreground job, up to the test of `waitfg`. -/
def launchFg (pid : Pid) : List Label := [.readLine "a\n".toList, .run, .fork pid, .run, .run]

/-- A background job in every slot, under the pids from 2 on. -/
def launchAll : List Label := (List.range MAXJOBS).flatMap fun k => launchBg (k + 2)

/-- The activation of `sigchld_handler` for a report about `pid`, without its return. -/
def handle (pid : Pid) (steps : Nat) : List Label :=
  [.deliver .SIGCHLD, .waitpid pid] ++ List.replicate steps .run

end Shell
