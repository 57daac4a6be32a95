import Mathlib.Data.Finset.Card
import CsappExperiments.Framework.Quiescence
import CsappExperiments.ShellLab.StopReports

/-! # Shell Lab: the shell left alone

    When nobody types, no signal is sent and no child changes its state, only
    the steps of the shell process itself are left: its code, the system calls
    it makes and the signals that are pending already. `load` bounds their
    number, although `waitfg` and `sigchld_handler` are loops: a round of
    `waitfg` uses up a pending signal, and a round of `sigchld_handler` a child
    that can be reported.

    The shell then rests: at the prompt or asleep in `waitfg`, with no signal
    blocked or pending, and no zombie among its children (`shell_settles`).
-/

open CLib

namespace Shell

/-! ## Section 1: The load -/

/-- The steps of the shell process itself. -/
def Label.own : Label → Prop
  | .deliver _ | .fork _ | .forkFail | .waitpid _ | .run => True
  | .child _ _ | .join _ | .leave _ | .raise _ | .readLine _ | .readEnd _ => False

instance (l : Label) : Decidable l.own := by
  cases l <;> unfold Label.own <;> infer_instance

/-- The children that `waitpid` can report. -/
def reportable (procs : ProcTable) : Finset Pid :=
  procs.keys.toFinset.filter fun p => (procs.lookup p).any fun c => c.status.report.isSome

/-- The steps that `sigchld_handler` has left, if no child can be reported. -/
def ChldPc.load : ChldPc → Nat
  | .reported .. => 7
  | .found .. => 6
  | .printed .. => 5
  | .masked .. => 4
  | .updated _ => 3
  | .wait => 2
  | .return => 1

/-- The steps that a handler has left. -/
def HandlerPc.load : HandlerPc → Nat
  | .chld pc => pc.load
  | .termRead _ => 3
  | .termKill .. => 2
  | .termReturn | .quit => 1

def framesLoad (frames : List Frame) : Nat := (frames.map fun f => f.pc.load).sum

/-- The steps that the main line has left up to the prompt, or to `sigsuspend`. -/
def MainPc.load : MainPc → Nat
  | .top | .waitfgSleep .. => 0
  | .evalReturn .. | .bgfgPrint _ | .waitfgSuspend .. => 1
  | .evalPrint .. | .waitfgUnmask .. => 2
  | .evalUnblock .. | .waitfgTest .. => 3
  | .evalAdd .. | .bgfgWait _ => 4
  | .evalForked .. | .bgfgStore .. => 5
  | .evalFork .. | .bgfgKill .. => 6
  | .evalBlock .. | .bgfgLookup .. => 7

/-- A bound on the own steps. A pending signal costs its handler (3) and a
    wakeup of `waitfg` (3), and a report takes `sigchld_handler` back by 5. -/
def load (s : State) : Nat :=
  7 * s.pending.card + 6 * (reportable s.procs).card + framesLoad s.frames + s.main.load +
    (if s.halted = none then 1 else 0)

/-! ### The reportable children -/

theorem mem_reportable {procs : ProcTable} {p : Pid} :
    p ∈ reportable procs ↔ ∃ c, procs.lookup p = some c ∧ c.status.report ≠ none := by
  unfold reportable
  rw [Finset.mem_filter, List.mem_toFinset]
  constructor
  · intro ⟨_, h⟩
    obtain ⟨c, hc, hrep⟩ := (Option.any_eq_true _ _).mp h
    exact ⟨c, hc, Option.isSome_iff_ne_none.mp hrep⟩
  · intro ⟨c, hc, hrep⟩
    refine ⟨AList.mem_keys.mp (AList.lookup_isSome.mp (by rw [hc]; rfl)), ?_⟩
    rw [hc, Option.any_some]
    exact Option.isSome_iff_ne_none.mpr hrep

/-- A report takes one child off. -/
theorem reportable_reap {procs : ProcTable} {pid : Pid} {c : Proc} {how : Report}
    (hc : procs.lookup pid = some c) (hrep : c.status.report = some how) :
    (reportable (reap procs pid how)).card < (reportable procs).card := by
  have hmem : pid ∈ reportable procs :=
    mem_reportable.mpr ⟨c, hc, by rw [hrep]; exact Option.some_ne_none how⟩
  refine Finset.card_lt_card (Finset.ssubset_iff_subset_ne.mpr ⟨?_, ?_⟩)
  · intro p hp
    obtain ⟨d, hd, hdrep⟩ := mem_reportable.mp hp
    by_cases hpid : p = pid
    · rw [hpid]
      exact hmem
    · rw [lookup_reap_ne procs how hpid] at hd
      exact mem_reportable.mpr ⟨d, hd, hdrep⟩
  · intro heq
    rw [← heq] at hmem
    obtain ⟨d, hd, hdrep⟩ := mem_reportable.mp hmem
    cases how with
    | exited | signaled => exact notMem_reap rfl (AList.lookup_isSome.mp (by rw [hd]; rfl))
    | stopped =>
      rw [lookup_reap_stopped, hc] at hd
      obtain rfl := Option.some.inj hd
      exact hdrep rfl

theorem reportable_sigcont (procs : ProcTable) (pid : Pid) :
    reportable (sigcont procs pid) ⊆ reportable procs := by
  intro p hp
  obtain ⟨c, hc, hrep⟩ := mem_reportable.mp hp
  obtain ⟨d, hd, heq⟩ := lookup_sigcont hc
  refine mem_reportable.mpr ⟨d, hd, ?_⟩
  cases heq with
  | inl hsame => rwa [← hsame]
  | inr hcont =>
    rw [hcont] at hrep
    exact fun hnone => hrep (cont_report hnone)

/-- A new child has nothing to report. -/
theorem reportable_fork (procs : ProcTable) (pid : Pid) :
    reportable (procs.insert pid ⟨.running, false⟩) ⊆ reportable procs := by
  intro p hp
  obtain ⟨c, hc, hrep⟩ := mem_reportable.mp hp
  by_cases hpid : p = pid
  · subst hpid
    obtain rfl : (⟨.running, false⟩ : Proc) = c := by simpa using hc
    exact absurd rfl hrep
  · exact mem_reportable.mpr ⟨c, by rwa [AList.lookup_insert_ne hpid] at hc, hrep⟩

/-! ### Every own step uses up some of the load -/

/-- What counts for the load besides the code on top of the stack. -/
structure Lighter (s s' : State) : Prop where
  pending : s'.pending.card ≤ s.pending.card
  reportable : (Shell.reportable s'.procs).card ≤ (Shell.reportable s.procs).card
  halted : s.halted = none

theorem Lighter.load_lt {s s' : State} (h : Lighter s s') (hhalted : s'.halted = none)
    (hcode : framesLoad s'.frames + s'.main.load < framesLoad s.frames + s.main.load) :
    load s' < load s := by
  have hp := h.pending
  have hr := h.reportable
  simp only [load, h.halted, hhalted]
  omega

/-- A step that ends the process. -/
theorem Lighter.load_lt_of_halt {s s' : State} (h : Lighter s s') (hhalted : s'.halted ≠ none)
    (hcode : framesLoad s'.frames + s'.main.load ≤ framesLoad s.frames + s.main.load) :
    load s' < load s := by
  have hp := h.pending
  have hr := h.reportable
  simp only [load, h.halted, hhalted, if_true, if_false]
  omega

theorem framesLoad_cons (f : Frame) (fs : List Frame) :
    framesLoad (f :: fs) = f.pc.load + framesLoad fs := rfl

theorem handler_load_le (sig : Sig) : (handler sig).load ≤ 3 := by
  cases sig <;> decide

theorem wake_load_le (m : MainPc) : m.wake.load ≤ m.load + 3 := by
  cases m with
  | waitfgSleep => exact le_rfl
  | _ => exact Nat.le_add_right _ 3

/-- The main line moves on, and only `do_bgfg`'s `kill` reaches the children. -/
theorem mainStep_moves {s s' : State} (h : mainStep s = some s') :
    s'.frames = s.frames ∧ s'.pending = s.pending ∧ s'.halted = s.halted ∧
      reportable s'.procs ⊆ reportable s.procs ∧ s'.main.load < s.main.load := by
  obtain ⟨table, main, frames, blocked, pending, procs, helpers, halted⟩ := s
  cases main <;> simp only [mainStep] at h
  case top | evalFork | waitfgSleep => cases h
  case evalAdd bg cmdline pid prevOne =>
    obtain rfl := Option.some.inj h
    refine ⟨rfl, rfl, rfl, subset_rfl, ?_⟩
    cases bg <;> simp [MainPc.load]
  case bgfgLookup argv0 argv1 =>
    split at h <;> obtain rfl := Option.some.inj h <;>
      exact ⟨rfl, rfl, rfl, subset_rfl, by simp [MainPc.load]⟩
  case bgfgKill fg jobPtr =>
    obtain rfl := Option.some.inj h
    exact ⟨rfl, rfl, rfl, reportable_sigcont procs _, by simp [MainPc.load]⟩
  case bgfgStore fg jobPtr =>
    obtain rfl := Option.some.inj h
    refine ⟨rfl, rfl, rfl, subset_rfl, ?_⟩
    cases fg <;> simp [MainPc.load]
  case waitfgTest caller pid =>
    split at h <;> obtain rfl := Option.some.inj h <;>
      exact ⟨rfl, rfl, rfl, subset_rfl, by simp [MainPc.load]⟩
  case waitfgUnmask caller pid =>
    obtain rfl := Option.some.inj h
    refine ⟨rfl, rfl, rfl, subset_rfl, ?_⟩
    cases caller <;> simp [MainPc.load]
  all_goals
    obtain rfl := Option.some.inj h
    exact ⟨rfl, rfl, rfl, subset_rfl, by simp [MainPc.load]⟩

theorem mainStep_load {s s' : State} (hh : s.halted = none) (h : mainStep s = some s') :
    load s' < load s := by
  obtain ⟨hframes, hpending, hhalted, hprocs, hmain⟩ := mainStep_moves h
  refine Lighter.load_lt ⟨?_, Finset.card_le_card hprocs, hh⟩ (hhalted.trans hh) ?_
  · rw [hpending]
  · rw [hframes]
    exact Nat.add_lt_add_left hmain _

/-- A step of `sigchld_handler` moves it on, or ends the process. -/
theorem ChldStepped.load {s s₁ : State} {pc pc' : ChldPc} {saved : SigSet} {fs : List Frame}
    (hh : s.halted = none) (hf : s.frames = ⟨.chld pc, saved⟩ :: fs) (h : ChldStepped s pc pc' s₁) :
    load { s₁ with frames := ⟨.chld pc', saved⟩ :: fs } < load s := by
  cases h with
  | nullPrint | nullStore =>
    refine Lighter.load_lt_of_halt ⟨le_rfl, le_rfl, hh⟩ (Option.some_ne_none _) ?_
    rw [hf]
  | _ =>
    refine Lighter.load_lt ⟨le_rfl, le_rfl, hh⟩ hh ?_
    rw [hf, framesLoad_cons, framesLoad_cons]
    simp only [HandlerPc.load, ChldPc.load]
    omega

theorem HandlerPc.load_pos (pc : HandlerPc) : 0 < pc.load := by
  cases pc with
  | chld pc => cases pc <;> simp [HandlerPc.load, ChldPc.load]
  | _ => simp [HandlerPc.load]

theorem frameStep_load {s s' : State} {f : Frame} {fs : List Frame} (hh : s.halted = none)
    (hf : s.frames = f :: fs) (h : frameStep s f fs = some s') : load s' < load s := by
  obtain ⟨pc, saved⟩ := f
  have hquit : ∀ code, load { s with halted := some (.exited code) } < load s := fun code =>
    Lighter.load_lt_of_halt ⟨le_rfl, le_rfl, hh⟩ (Option.some_ne_none _) le_rfl
  have hpop : load { s with frames := fs, blocked := saved } < load s := by
    refine Lighter.load_lt ⟨le_rfl, le_rfl, hh⟩ hh (Nat.add_lt_add_right ?_ _)
    rw [hf, framesLoad_cons]
    exact Nat.lt_add_of_pos_left pc.load_pos
  have hreplace : ∀ pc' : HandlerPc, pc'.load < pc.load →
      load { s with frames := ⟨pc', saved⟩ :: fs } < load s := by
    intro pc' hlt
    refine Lighter.load_lt ⟨le_rfl, le_rfl, hh⟩ hh (Nat.add_lt_add_right ?_ _)
    rw [hf, framesLoad_cons, framesLoad_cons]
    exact Nat.add_lt_add_right hlt _
  -- a handler goes on, ends or stops the shell; `sigchld_handler` has its own lemma
  cases pc with
  | termReturn =>
    obtain rfl := Option.some.inj h
    exact hpop
  | termRead sig =>
    obtain rfl := Option.some.inj h
    exact hreplace _ (by simp [HandlerPc.load])
  | termKill sig pid =>
    simp only [frameStep] at h
    split at h <;> obtain rfl := Option.some.inj h
    · exact hquit 1
    · exact hreplace _ (by simp [HandlerPc.load])
  | quit =>
    obtain rfl := Option.some.inj h
    exact hquit 1
  | chld pc =>
    obtain ⟨rfl, rfl⟩ | ⟨pc', s₁, hstep, rfl⟩ := frameStep_chld h
    · exact hpop
    · exact hstep.load hh hf

theorem interrupt_load {s : State} {sig : Sig} (hm : MaskInv s.main s.frames s.blocked)
    (hh : s.halted = none) (hsig : sig ∈ s.pending) : load (interrupt s sig) < load s := by
  obtain ⟨saved, blocked, heq⟩ := interrupt_eq hm sig
  have hcard : (s.pending.erase sig).card + 1 = s.pending.card := Finset.card_erase_add_one hsig
  have hhandler := handler_load_le sig
  have hwake := wake_load_le s.main
  rw [heq]
  simp only [load, framesLoad_cons, hh]
  omega

/-- Every own step of the shell. -/
theorem load_drops {s s' : State} {l : Label} (hm : MaskInv s.main s.frames s.blocked)
    (hown : l.own) (h : step s l = some s') : load s' < load s := by
  obtain ⟨hh, hstep⟩ := step_cases h
  cases hstep with
  | child | join | leave | raise | readLine | readEnd => exact hown.elim
  | deliver sig hpending _ => exact interrupt_load hm hh hpending
  | fork pid bg cmdline prevOne hf hmain =>
    have hsub := Finset.card_le_card (reportable_fork s.procs pid)
    refine Lighter.load_lt ⟨le_rfl, hsub, hh⟩ hh ?_
    rw [hmain]
    exact Nat.add_lt_add_left (by simp [MainPc.load]) _
  | forkFail => exact Lighter.load_lt_of_halt ⟨le_rfl, le_rfl, hh⟩ (Option.some_ne_none _) le_rfl
  | waitpid pid how c saved fs hf hc hrep =>
    -- the handler goes back, but there is one report less
    have hreap := reportable_reap hc hrep
    simp only [load, hf, framesLoad_cons, HandlerPc.load, ChldPc.load, hh]
    omega
  | main _ _ hmain => exact mainStep_load hh hmain
  | frame f fs _ hf hframe => exact frameStep_load hh hf hframe

theorem shell_drains : shell.Drains Label.own load where
  drops := fun hr hown hs => load_drops (reachable_mask hr) hown hs

/-! ## Section 2: The states at rest -/

/-- At the prompt, or asleep in `waitfg`. -/
def MainPc.idle : MainPc → Prop
  | .top | .waitfgSleep .. => True
  | _ => False

/-- Only `waitpid` can be what a handler waits for. -/
theorem frameStep_eq_none {s : State} {f : Frame} {fs : List Frame} (h : frameStep s f fs = none) :
    f.pc = .chld .wait ∧ ∃ pid c how, s.procs.lookup pid = some c ∧ c.status.report = some how := by
  obtain ⟨pc, saved⟩ := f
  cases pc with
  | termReturn | termRead | quit => cases h
  | termKill sig pid =>
    simp only [frameStep] at h
    split at h <;> cases h
  | chld pc =>
    cases pc with
    | wait =>
      refine ⟨rfl, ?_⟩
      -- only `waitpid` has to wait for its label, when there is something to report
      have hall : ¬ (s.procs.all fun _ c => c.status.report = none) = true := by
        intro hall
        simp [frameStep, chldStep, hall] at h
      rw [AList.all_iff] at hall
      simp only [not_forall, decide_eq_true_eq] at hall
      obtain ⟨pid, c, hc, hrep⟩ := hall
      obtain ⟨how, hhow⟩ := Option.ne_none_iff_exists'.mp hrep
      exact ⟨pid, c, how, hc, hhow⟩
    | reported how pid => cases how <;> cases h
    | found how pid jobPtr => cases jobPtr <;> cases h
    | masked how pid jobPtr prevAll => cases how <;> cases jobPtr <;> cases h
    | printed | updated | «return» => cases h

theorem mainStep_eq_none {s : State} (h : mainStep s = none) :
    s.main.idle ∨ ∃ bg cmdline prevOne, s.main = .evalFork bg cmdline prevOne := by
  cases hmain : s.main <;> simp only [mainStep, hmain] at h
  case top | waitfgSleep => exact .inl trivial
  case evalFork bg cmdline prevOne => exact .inr ⟨bg, cmdline, prevOne, rfl⟩
  case bgfgLookup => split at h <;> cases h
  case waitfgTest => split at h <;> cases h
  all_goals cases h

/-- What is left when no own step is enabled. -/
structure Resting (s : State) : Prop where
  frames : s.frames = []
  main : s.main.idle
  blocked : s.blocked = ∅
  pending : s.pending = ∅

theorem resting {s : State} (hr : shell.Reachable s) (hh : s.halted = none)
    (hrest : shell.AtRest Label.own s) :
    Resting s := by
  have hstep : ∀ l, l.own → step s l = none := hrest
  have hframes : s.frames = [] := by
    cases hf : s.frames with
    | nil => rfl
    | cons f fs =>
      -- a handler is stuck in `waitpid`, but a child can be reported
      have hrun : frameStep s f fs = none := by
        have hnone := hstep .run trivial
        simpa [step, hh, hf] using hnone
      obtain ⟨hpc, pid, c, how, hc, hrep⟩ := frameStep_eq_none hrun
      have hnone := hstep (.waitpid pid) trivial
      obtain ⟨pc, saved⟩ := f
      obtain rfl : pc = .chld .wait := hpc
      simp [step, hh, hf, hc, hrep] at hnone
  have hmain : s.main.idle := by
    have hrun : mainStep s = none := by
      have hnone := hstep .run trivial
      simpa [step, hh, hframes] using hnone
    refine (mainStep_eq_none hrun).resolve_right ?_
    intro ⟨bg, cmdline, prevOne, hfork⟩
    have hnone := hstep .forkFail trivial
    simp [step, hh, hframes, hfork] at hnone
  have hblocked : s.blocked = ∅ := by
    have hbase := (reachable_mask hr).base
    rw [hframes] at hbase
    cases hm : s.main with
    | top =>
      rw [hm] at hbase
      exact hbase
    | waitfgSleep caller pid old =>
      rw [hm] at hbase
      exact hbase.1
    | _ =>
      rw [hm] at hmain
      exact hmain.elim
  refine ⟨hframes, hmain, hblocked, ?_⟩
  refine Finset.eq_empty_of_forall_notMem fun sig hsig => ?_
  have hnone := hstep (.deliver sig) trivial
  simp [step, hh, hsig, hblocked] at hnone

/-- At rest no child is a zombie, and every stop has been reported. -/
theorem Resting.children {s : State} (hr : shell.Reachable s) (h : Resting s) {pid : Pid} {c : Proc}
    (hc : s.procs.lookup pid = some c) : c.status = .running ∨ c.status = .stopped true := by
  have hnone : c.status.report = none := by
    refine nothing_to_report hr ?_ ?_ hc
    · rw [h.frames]
      rfl
    · rw [h.pending]
      exact Finset.notMem_empty _
  cases hst : c.status with
  | running => exact .inl rfl
  | stopped reported =>
    rw [hst] at hnone
    cases reported with
    | true => exact .inr rfl
    | false => cases hnone
  | exited | signaled =>
    rw [hst] at hnone
    cases hnone

/-! ## Section 3: The shell settles -/

/-- The shell takes at most `load s` steps of its own, and some own steps lead
    to rest. There it has ended, or it is at the prompt or asleep in `waitfg`
    with no handler active and no signal blocked or pending, and each of its
    children is running or has a stop that was reported. -/
theorem shell_settles {s : State} (h : shell.Reachable s) :
    (∀ ls s', shell.OwnRun Label.own s ls s' → ls.length ≤ load s) ∧
    (∃ ls s', shell.OwnRun Label.own s ls s' ∧ shell.AtRest Label.own s') ∧
    ∀ ls s', shell.OwnRun Label.own s ls s' → shell.AtRest Label.own s' → s'.halted = none →
      Resting s' ∧ ∀ pid c, s'.procs.lookup pid = some c → c.status = .running ∨
        c.status = .stopped true := by
  refine ⟨?_, shell_drains.exists_rest h, ?_⟩
  · intro ls s' hrun
    have hle := shell_drains.length_le h hrun
    omega
  · intro ls s' hrun hrest hh
    have hr : shell.Reachable s' := hrun.reachable h
    have hresting := resting hr hh hrest
    exact ⟨hresting, fun pid c hc => hresting.children hr hc⟩

/-- Two background jobs have ended. -/
theorem shell_settles_zombies :
    ∃ s, shell.Reachable s ∧ 2 ∈ s.procs ∧ 3 ∈ s.procs ∧ load s = 20 ∧
      (∀ ls s', shell.OwnRun Label.own s ls s' → ls.length ≤ load s) ∧
      ∃ ls s', shell.OwnRun Label.own s ls s' ∧ shell.AtRest Label.own s' := by
  have hrun : (shell.run initial (launchBg 2 ++ launchBg 3 ++ [.child 2 .exit, .child 3 .kill])).any
      (fun s => decide (2 ∈ s.procs ∧ 3 ∈ s.procs ∧ load s = 20)) = true := by
    decide +kernel
  obtain ⟨s, hs, hp⟩ := LTS.System.Reachable.init.exists_run hrun
  obtain ⟨htwo, hthree, hload⟩ := of_decide_eq_true hp
  obtain ⟨hbound, hexists, _⟩ := shell_settles hs
  exact ⟨s, hs, htwo, hthree, hload, hbound, hexists⟩

end Shell
