import CsappExperiments.ShellLab.Machine

/-! # Shell Lab: signal masks

    Which signals are blocked where. The mask in force when the main line
    executes depends only on the point it has reached (`MainMask`); while
    handlers run, that mask is the one the outermost activation will restore
    (`baseMask`).

    Two consequences carry the rest of the development:
    * `sigchld_handler` is active at most once, and SIGCHLD is blocked at
      every level above it (`ChldGuarded`);
    * no activation of `sigchld_handler` overlaps `eval`'s steps from `fork`
      to `addjob` (`critical`).
-/

namespace Shell

/-! ## Section 1: The discipline -/

/-- The program point of the activation, if it is one of `sigchld_handler`. -/
def Frame.chld? (f : Frame) : Option ChldPc :=
  match f.pc with
  | .chld pc => some pc
  | _ => none

/-- The activation of `sigchld_handler`, if there is one. -/
def chldOf (frames : List Frame) : Option ChldPc := frames.findSome? Frame.chld?

/-- The mask that the main line sees when all handlers have returned. -/
def baseMask : SigSet → List Frame → SigSet
  | blocked, [] => blocked
  | _, f :: fs => baseMask f.saved fs

/-- The mask that `waitfg` is entered with. -/
def Caller.mask : Caller → SigSet
  | .eval => Finset.univ
  | .doBgfg => ∅

/-- The mask at a point of the main line. -/
def MainMask : MainPc → SigSet → Prop
  | .evalFork _ _ prevOne, b => b = {.SIGCHLD} ∧ prevOne = ∅
  | .evalForked _ _ _ prevOne, b => b = {.SIGCHLD} ∧ prevOne = ∅
  | .evalAdd _ _ _ prevOne, b => b = Finset.univ ∧ prevOne = ∅
  | .evalUnblock _ _ prevOne, b => b = Finset.univ ∧ prevOne = ∅
  | .waitfgTest caller _, b => b = caller.mask
  | .waitfgSuspend caller _, b => b = caller.mask
  | .waitfgUnmask caller _, b => b = caller.mask
  | .waitfgSleep caller _ old, b => b = ∅ ∧ old = caller.mask
  | _, b => b = ∅

/-- The points of `eval`, and of `waitfg` called from it, at which SIGCHLD
    is blocked and `sigchld_handler` is not active. -/
def MainPc.critical : MainPc → Bool
  | .evalFork .. | .evalForked .. | .evalAdd .. | .evalUnblock .. => true
  | .waitfgSuspend .eval _ | .waitfgUnmask .eval _ => true
  | _ => false

def MainPc.asleep : MainPc → Bool
  | .waitfgSleep .. => true
  | _ => false

/-- The mask that `sigchld_handler` has put aside still blocks SIGCHLD. -/
def Frame.prevOk (f : Frame) : Prop :=
  match f.pc with
  | .chld (.masked _ _ _ prevAll) => Sig.SIGCHLD ∈ prevAll
  | .chld (.updated prevAll) => Sig.SIGCHLD ∈ prevAll
  | _ => True

/-- SIGCHLD is blocked at every level at or above an activation of
    `sigchld_handler`. -/
def ChldGuarded : SigSet → List Frame → Prop
  | _, [] => True
  | blocked, f :: fs =>
    (chldOf (f :: fs) ≠ none → Sig.SIGCHLD ∈ blocked) ∧
    (f.chld? ≠ none → chldOf fs = none) ∧ f.prevOk ∧ ChldGuarded f.saved fs

/-- SIGCHLD is blocked at every level, and its handler is not active. -/
def ChldExcluded (blocked : SigSet) (frames : List Frame) : Prop :=
  Sig.SIGCHLD ∈ blocked ∧ ∀ f ∈ frames, Sig.SIGCHLD ∈ f.saved ∧ f.chld? = none

/-- The mask invariant, on the control part of a state. -/
structure MaskInv (main : MainPc) (frames : List Frame) (blocked : SigSet) : Prop where
  guarded : ChldGuarded blocked frames
  base : MainMask main (baseMask blocked frames)
  excluded : main.critical = true → ChldExcluded blocked frames
  asleep : main.asleep = true → frames = []

/-! ## Section 2: Stack operations -/

@[simp] theorem chldOf_nil : chldOf [] = none := rfl

theorem chldOf_cons (f : Frame) (fs : List Frame) :
    chldOf (f :: fs) = f.chld?.or (chldOf fs) := by
  unfold chldOf
  rw [List.findSome?_cons]
  cases f.chld? <;> rfl

/-- The handler has not put a mask aside when it starts. -/
theorem prevOk_handler (sig : Sig) (saved : SigSet) : (Frame.mk (handler sig) saved).prevOk := by
  cases sig <;> trivial

theorem handler_chld?_ne_none {sig : Sig} {saved : SigSet}
    (h : (Frame.mk (handler sig) saved).chld? ≠ none) : sig = .SIGCHLD := by
  cases sig with
  | SIGCHLD => rfl
  | SIGINT => exact absurd rfl h
  | SIGTSTP => exact absurd rfl h
  | SIGQUIT => exact absurd rfl h

/-- A delivered SIGCHLD finds no other activation of its handler. -/
theorem ChldGuarded.none_of_unblocked {blocked : SigSet} {frames : List Frame}
    (h : ChldGuarded blocked frames) (hsig : Sig.SIGCHLD ∉ blocked) : chldOf frames = none := by
  cases frames with
  | nil => rfl
  | cons f fs =>
    by_contra hne
    exact hsig (h.1 hne)

theorem ChldGuarded.push {blocked saved : SigSet} {frames : List Frame} {sig : Sig}
    (h : ChldGuarded saved frames) (hsub : chldOf frames ≠ none → Sig.SIGCHLD ∈ blocked)
    (hsig : sig = .SIGCHLD → chldOf frames = none) :
    ChldGuarded (insert sig blocked) (⟨handler sig, saved⟩ :: frames) := by
  refine ⟨?_, ?_, prevOk_handler sig saved, h⟩
  · -- either an activation below is one of `sigchld_handler`, or the new one is
    intro hne
    rw [chldOf_cons] at hne
    by_cases hf : (Frame.mk (handler sig) saved).chld? = none
    · rw [hf, Option.none_or] at hne
      exact Finset.mem_insert_of_mem (hsub hne)
    · rw [handler_chld?_ne_none hf]
      exact Finset.mem_insert_self _ _
  · intro hf
    exact hsig (handler_chld?_ne_none hf)

/-- The top activation moves to another point, possibly changing the mask. -/
theorem ChldGuarded.replace {b b' saved : SigSet} {pc pc' : HandlerPc} {fs : List Frame}
    (h : ChldGuarded b (⟨pc, saved⟩ :: fs))
    (hpc : (Frame.mk pc' saved).chld? ≠ none → (Frame.mk pc saved).chld? ≠ none)
    (hb : Sig.SIGCHLD ∈ b → Sig.SIGCHLD ∈ b') (hprev : (Frame.mk pc' saved).prevOk) :
    ChldGuarded b' (⟨pc', saved⟩ :: fs) := by
  obtain ⟨hmask, hone, _, hrest⟩ := h
  refine ⟨?_, fun hf => hone (hpc hf), hprev, hrest⟩
  intro hne
  apply hb
  apply hmask
  rw [chldOf_cons] at hne ⊢
  by_cases hf : (Frame.mk pc' saved).chld? = none
  · rw [hf, Option.none_or] at hne
    rw [Ne, Option.or_eq_none_iff]
    exact fun hboth => hne hboth.2
  · rw [Ne, Option.or_eq_none_iff]
    exact fun hboth => hpc hf hboth.1

theorem ChldExcluded.push {b saved : SigSet} {frames : List Frame} {sig : Sig}
    (h : ChldExcluded b frames) (hsaved : Sig.SIGCHLD ∈ saved) (hsig : sig ≠ .SIGCHLD) :
    ChldExcluded (insert sig b) (⟨handler sig, saved⟩ :: frames) := by
  refine ⟨Finset.mem_insert_of_mem h.1, ?_⟩
  intro f hf
  rcases List.mem_cons.mp hf with rfl | hf
  · refine ⟨hsaved, ?_⟩
    by_contra hne
    exact hsig (handler_chld?_ne_none hne)
  · exact h.2 f hf

/-! ## Section 3: The invariant is preserved -/

theorem maskInv_initial : MaskInv initial.main initial.frames initial.blocked where
  guarded := trivial
  base := rfl
  excluded := by intro h; cases h
  asleep := by intro h; cases h

/-- At the bottom of the stack only the main line's own mask matters. -/
theorem MaskInv.of_main {main : MainPc} {blocked : SigSet} (hbase : MainMask main blocked)
    (hcrit : main.critical = true → Sig.SIGCHLD ∈ blocked) : MaskInv main [] blocked where
  guarded := trivial
  base := hbase
  excluded := fun h => ⟨hcrit h, fun _ hf => absurd hf List.not_mem_nil⟩
  asleep := fun _ => rfl

/-- Returning from a handler restores the mask of the level below. -/
theorem MaskInv.pop {main : MainPc} {f : Frame} {fs : List Frame} {blocked : SigSet}
    (h : MaskInv main (f :: fs) blocked) : MaskInv main fs f.saved where
  guarded := h.guarded.2.2.2
  base := h.base
  excluded := by
    intro hcrit
    obtain ⟨_, hall⟩ := h.excluded hcrit
    exact ⟨(hall f List.mem_cons_self).1, fun g hg => hall g (List.mem_cons_of_mem _ hg)⟩
  asleep := fun ha => absurd (h.asleep ha) (List.cons_ne_nil _ _)

/-- The top activation moves to another point. -/
theorem MaskInv.replace {main : MainPc} {b b' saved : SigSet} {pc pc' : HandlerPc}
    {fs : List Frame} (h : MaskInv main (⟨pc, saved⟩ :: fs) b)
    (hpc : (Frame.mk pc' saved).chld? ≠ none → (Frame.mk pc saved).chld? ≠ none)
    (hb : Sig.SIGCHLD ∈ b → Sig.SIGCHLD ∈ b') (hprev : (Frame.mk pc' saved).prevOk) :
    MaskInv main (⟨pc', saved⟩ :: fs) b' where
  guarded := h.guarded.replace hpc hb hprev
  base := h.base
  excluded := by
    intro hcrit
    obtain ⟨hmask, hall⟩ := h.excluded hcrit
    have htop := hall _ List.mem_cons_self
    refine ⟨hb hmask, ?_⟩
    intro f hf
    rcases List.mem_cons.mp hf with rfl | hf
    · refine ⟨htop.1, ?_⟩
      by_contra hne
      exact hpc hne htop.2
    · exact hall f (List.mem_cons_of_mem _ hf)
  asleep := fun ha => absurd (h.asleep ha) (List.cons_ne_nil _ _)

theorem MaskInv.interrupt {s : State} {sig : Sig} (h : MaskInv s.main s.frames s.blocked)
    (hsig : sig ∉ s.blocked) :
    MaskInv (interrupt s sig).main (interrupt s sig).frames (interrupt s sig).blocked := by
  unfold Shell.interrupt
  split
  · next caller pid old hm hf =>
    -- sigsuspend returns: the mask of `waitfg` is the one it saved
    rw [hm, hf] at h
    obtain ⟨_, hold⟩ := h.base
    exact
      { guarded :=
          (show ChldGuarded old [] from trivial).push (fun hne => absurd rfl hne) fun _ => rfl
        base := hold
        excluded := by intro hcrit; cases hcrit
        asleep := by intro ha; cases ha }
  · next hnot =>
    -- the mask of the interrupted level is kept, with `sig` added
    exact
      { guarded := h.guarded.push
          (fun hne => by
            by_contra hmem
            exact hne (h.guarded.none_of_unblocked hmem))
          (fun heq => h.guarded.none_of_unblocked (heq ▸ hsig))
        base := h.base
        excluded := by
          intro hcrit
          have hex := h.excluded hcrit
          exact hex.push hex.1 fun heq => hsig (heq ▸ hex.1)
        asleep := by
          intro ha
          cases hm : s.main <;> rw [hm] at ha <;> cases ha
          exact absurd (h.asleep (by rw [hm]; rfl)) (hnot _ _ _ hm) }

/-- A step of the main line ends at a point that has the right mask. -/
theorem mainStep_mask {s s' : State} (hb : MainMask s.main s.blocked) (h : mainStep s = some s') :
    s'.frames = s.frames ∧ MainMask s'.main s'.blocked ∧
      (s'.main.critical = true → Sig.SIGCHLD ∈ s'.blocked) := by
  obtain ⟨table, main, frames, blocked, pending, procs, helpers, halted⟩ := s
  cases main <;> simp only [mainStep] at h
  case top | evalFork | waitfgSleep => cases h
  case evalBlock bg cmdline =>
    obtain rfl : blocked = ∅ := hb
    obtain rfl := Option.some.inj h
    exact ⟨rfl, ⟨rfl, rfl⟩, fun _ => Finset.mem_insert_self _ _⟩
  case evalForked bg cmdline pid prevOne =>
    obtain rfl := Option.some.inj h
    exact ⟨rfl, ⟨rfl, hb.2⟩, fun _ => Finset.mem_univ _⟩
  case evalAdd bg cmdline pid prevOne =>
    -- the background path keeps everything blocked, the foreground path too
    obtain ⟨rfl, rfl⟩ := hb
    obtain rfl := Option.some.inj h
    cases bg with
    | true => exact ⟨rfl, ⟨rfl, rfl⟩, fun _ => Finset.mem_univ _⟩
    | false => exact ⟨rfl, rfl, fun hcrit => by cases hcrit⟩
  case evalUnblock cmdline pid prevOne =>
    obtain rfl := Option.some.inj h
    exact ⟨rfl, hb.2, fun hcrit => by cases hcrit⟩
  case evalPrint | evalReturn | bgfgKill | bgfgWait | bgfgPrint =>
    obtain rfl := Option.some.inj h
    exact ⟨rfl, hb, fun hcrit => by cases hcrit⟩
  case bgfgLookup argv0 argv1 =>
    cases hjob : bgfgJob table argv0 argv1 <;> rw [hjob] at h <;> obtain rfl := Option.some.inj h
    all_goals exact ⟨rfl, hb, fun hcrit => by cases hcrit⟩
  case bgfgStore fg jobPtr =>
    obtain rfl := Option.some.inj h
    cases fg <;> exact ⟨rfl, hb, fun hcrit => by cases hcrit⟩
  case waitfgTest caller pid =>
    -- `waitfg` has the mask of its caller until it sleeps
    obtain rfl : blocked = caller.mask := hb
    split at h <;> obtain rfl := Option.some.inj h <;> refine ⟨rfl, rfl, fun hcrit => ?_⟩
    all_goals cases caller with
    | eval => exact Finset.mem_univ _
    | doBgfg => cases hcrit
  case waitfgSuspend caller pid =>
    obtain rfl := Option.some.inj h
    exact ⟨rfl, ⟨rfl, hb⟩, fun hcrit => by cases hcrit⟩
  case waitfgUnmask caller pid =>
    obtain rfl := Option.some.inj h
    cases caller <;> exact ⟨rfl, rfl, fun hcrit => by cases hcrit⟩

/-- A step of the top activation: it returns, or moves to another point. -/
theorem frameStep_mask {s s' : State} {f : Frame} {fs : List Frame}
    (hm : MaskInv s.main (f :: fs) s.blocked) (hf : s.frames = f :: fs)
    (h : frameStep s f fs = some s') : MaskInv s'.main s'.frames s'.blocked := by
  obtain ⟨table, main, frames, blocked, pending, procs, helpers, halted⟩ := s
  obtain ⟨pc, saved⟩ := f
  obtain rfl : frames = ⟨pc, saved⟩ :: fs := hf
  cases pc with
  | termReturn =>
    obtain rfl := Option.some.inj h
    exact hm.pop
  | termRead sig =>
    obtain rfl := Option.some.inj h
    exact hm.replace (fun hne => absurd rfl hne) id trivial
  | termKill sig pid =>
    simp only [frameStep] at h
    split at h <;> obtain rfl := Option.some.inj h
    · exact hm
    · exact hm.replace (fun hne => absurd rfl hne) id trivial
  | quit =>
    obtain rfl := Option.some.inj h
    exact hm
  | chld pc =>
    have hblk : Sig.SIGCHLD ∈ blocked := hm.guarded.1 (by simp [chldOf_cons, Frame.chld?])
    have hall : Sig.SIGCHLD ∈ blocked → Sig.SIGCHLD ∈ (Finset.univ : SigSet) :=
      fun _ => Finset.mem_univ _
    have hstay : ∀ pc', (Frame.mk (.chld pc') saved).chld? ≠ none →
        (Frame.mk (.chld pc) saved).chld? ≠ none :=
      fun _ _ hne => by cases hne
    obtain ⟨rfl, rfl⟩ | ⟨pc', s₁, hstep, rfl⟩ := frameStep_chld h
    · exact hm.pop
    -- at its other points the handler stays on top, with SIGCHLD blocked
    cases hstep with
    | drained | lookup | print => exact hm.replace (hstay _) id trivial
    | block | blockAll => exact hm.replace (hstay _) hall hblk
    | delete | stop =>
      have hprev : Sig.SIGCHLD ∈ _ := hm.guarded.2.2.1
      exact hm.replace (hstay _) id hprev
    | unblock prevAll =>
      -- the mask that is restored was in force when the handler was active
      have hprev : Sig.SIGCHLD ∈ prevAll := hm.guarded.2.2.1
      exact hm.replace (hstay _) (fun _ => hprev) trivial
    | nullPrint | nullStore => exact hm

/-- What `eval` does with a line before it forks. -/
theorem evalLine_cases {s s' : State} {cmdline : CLib.CStr} (h : evalLine s cmdline = some s') :
    s' = s ∨ s' = { s with halted := some (.exited 0) } ∨
      (∃ bg, s' = { s with main := .evalBlock bg cmdline }) ∨
      ∃ argv0 argv1, s' = { s with main := .bgfgLookup argv0 argv1 } := by
  unfold evalLine at h
  split at h
  · cases h
  · exact .inl (Option.some.inj h).symm
  · split at h <;> obtain rfl := Option.some.inj h
    · exact .inr (.inl rfl)
    · exact .inl rfl
    · exact .inl rfl
    · exact .inr (.inr (.inr ⟨_, _, rfl⟩))
    · exact .inr (.inr (.inl ⟨_, rfl⟩))

/-- Every step keeps the mask discipline. -/
theorem step_mask {s s' : State} {l : Label} (hm : MaskInv s.main s.frames s.blocked)
    (h : step s l = some s') : MaskInv s'.main s'.frames s'.blocked := by
  obtain ⟨_, hstep⟩ := step_cases h
  cases hstep with
  | child | join | leave | raise | readEnd | forkFail => exact hm
  | deliver sig _ hblocked => exact hm.interrupt hblocked
  | readLine cmdline _ hf hmain hline =>
    rw [hf, hmain] at hm
    rcases evalLine_cases hline with rfl | rfl | ⟨bg, rfl⟩ | ⟨argv0, argv1, rfl⟩ <;>
      simp only [hf, hmain]
    -- nothing is blocked before `eval`'s first sigprocmask
    · exact hm
    · exact hm
    · exact .of_main hm.base fun hcrit => by cases hcrit
    · exact .of_main hm.base fun hcrit => by cases hcrit
  | fork pid bg cmdline prevOne hf hmain =>
    rw [hf, hmain] at hm
    simp only [hf]
    exact .of_main hm.base fun _ => (hm.excluded rfl).1
  | waitpid pid how c saved fs hf =>
    rw [hf] at hm
    exact hm.replace (fun _ hne => by cases hne) id trivial
  | main _ hf hmain =>
    rw [hf] at hm
    obtain ⟨hframes, hbase, hcrit⟩ := mainStep_mask hm.base hmain
    rw [hframes, hf]
    exact .of_main hbase hcrit
  | frame f fs _ hf hframe =>
    rw [hf] at hm
    exact frameStep_mask hm hf hframe

theorem reachable_mask {s : State} (h : shell.Reachable s) :
    MaskInv s.main s.frames s.blocked :=
  h.invariant (P := fun s => MaskInv s.main s.frames s.blocked) maskInv_initial
    fun _ _ _ _ hm hs => step_mask hm hs

end Shell
