import Mathlib.Logic.Relation

/-! # Guarded Transition Systems

    A labelled transition system whose step function is partial and
    executable: `step s l = some s'` when label `l` is enabled in `s`.
    The same function serves replay (`run`), reachability and proofs.

    * `Reachable`: states reached by any sequence of enabled labels.
    * `ReachableUnder ok`: states reached by runs all of whose steps
      satisfy a condition `ok` on the state before the step and the label.
    * `Abstraction`: a view of the states under which every step is a move
      of a smaller relation. Invariants proved on the moves transfer to
      the runs of the system (`Abstraction.invariant`).
    * `run_perm`: a replay of labels that commute may be reordered.
    * `run_of_keeps`: if allowed labels are enabled, a replay of allowed labels
      does not get stuck.
-/

namespace LTS

variable {State : Type*} {Label : Type*}

/-- A transition system with one initial state and a guarded step function. -/
structure System (State : Type*) (Label : Type*) where
  init : State
  step : State → Label → Option State

namespace System

variable (sys : System State Label)

/-! ## Runs and reachability -/

/-- Replay a list of labels; `none` if one of them is not enabled. -/
def run (s : State) : List Label → Option State
  | [] => some s
  | l :: ls => (sys.step s l).bind fun s' => run s' ls

/-- States reached by runs whose every step meets `ok`. -/
inductive ReachableUnder (ok : State → Label → Prop) : State → Prop where
  | init : ReachableUnder ok sys.init
  | step : ∀ {s s' l}, ReachableUnder ok s → ok s l → sys.step s l = some s' →
      ReachableUnder ok s'

/-- States reached by any run. -/
def Reachable (s : State) : Prop := sys.ReachableUnder (fun _ _ => True) s

/-- Replay a list of labels, checking `ok` before each step. -/
def runUnder (ok : State → Label → Prop) [∀ s l, Decidable (ok s l)] (s : State) :
    List Label → Option State
  | [] => some s
  | l :: ls => if ok s l then (sys.step s l).bind fun s' => runUnder ok s' ls else none

variable {sys}

theorem ReachableUnder.mono {ok ok' : State → Label → Prop} {s : State}
    (himp : ∀ s l, ok s l → ok' s l) (h : sys.ReachableUnder ok s) :
    sys.ReachableUnder ok' s := by
  induction h with
  | init => exact .init
  | step _ hok hstep ih => exact .step ih (himp _ _ hok) hstep

theorem ReachableUnder.reachable {ok : State → Label → Prop} {s : State}
    (h : sys.ReachableUnder ok s) : sys.Reachable s :=
  h.mono fun _ _ _ => trivial

theorem Reachable.init : sys.Reachable sys.init := ReachableUnder.init

theorem Reachable.step {s s' : State} {l : Label} (h : sys.Reachable s)
    (hstep : sys.step s l = some s') : sys.Reachable s' :=
  ReachableUnder.step h trivial hstep

theorem ReachableUnder.run {ok : State → Label → Prop} [∀ s l, Decidable (ok s l)] :
    ∀ (ls : List Label) {s s' : State}, sys.ReachableUnder ok s →
      sys.runUnder ok s ls = some s' → sys.ReachableUnder ok s'
  | [], s, s', h, hrun => by
    obtain rfl : s = s' := by simpa [runUnder] using hrun
    exact h
  | l :: ls, s, s', h, hrun => by
    rw [runUnder] at hrun
    split at hrun
    · next hok =>
      obtain ⟨s₁, hs₁, hrest⟩ := Option.bind_eq_some_iff.mp hrun
      exact ReachableUnder.run ls (.step h hok hs₁) hrest
    · simp at hrun

theorem Reachable.run (ls : List Label) {s s' : State} (h : sys.Reachable s)
    (hrun : sys.run s ls = some s') : sys.Reachable s' := by
  induction ls generalizing s with
  | nil =>
    obtain rfl : s = s' := by simpa [System.run] using hrun
    exact h
  | cons l ls ih =>
    obtain ⟨s₁, hs₁, hrest⟩ := Option.bind_eq_some_iff.mp hrun
    exact ih (h.step hs₁) hrest

/-- A replay that ends in a state passing the test `p`. -/
theorem Reachable.exists_run {s : State} (h : sys.Reachable s) {ls : List Label} {p : State → Bool}
    (hrun : (sys.run s ls).any p = true) : ∃ s', sys.Reachable s' ∧ p s' = true := by
  obtain ⟨s', hs', hp⟩ := (Option.any_eq_true _ _).mp hrun
  exact ⟨s', h.run ls hs', hp⟩

theorem ReachableUnder.exists_run {ok : State → Label → Prop} [∀ s l, Decidable (ok s l)]
    {s : State} (h : sys.ReachableUnder ok s) {ls : List Label} {p : State → Bool}
    (hrun : (sys.runUnder ok s ls).any p = true) :
    ∃ s', sys.ReachableUnder ok s' ∧ p s' = true := by
  obtain ⟨s', hs', hp⟩ := (Option.any_eq_true _ _).mp hrun
  exact ⟨s', h.run ls hs', hp⟩

/-! ## Commuting labels -/

theorem run_append (s : State) (ls ls' : List Label) :
    sys.run s (ls ++ ls') = (sys.run s ls).bind fun s' => sys.run s' ls' := by
  induction ls generalizing s with
  | nil => rfl
  | cons l ls ih =>
    simp only [List.cons_append, run, Option.bind_assoc]
    exact congrArg _ (funext ih)

/-- If any two labels of a replay commute, in every state, then the replay
    comes to the same end in any order. -/
theorem run_perm {ls ls' : List Label} (hperm : ls.Perm ls')
    (hcomm : ∀ l ∈ ls, ∀ l' ∈ ls, ∀ s,
      (sys.step s l).bind (sys.step · l') = (sys.step s l').bind (sys.step · l)) (s : State) :
    sys.run s ls = sys.run s ls' := by
  induction hperm generalizing s with
  | nil => rfl
  | cons l _ ih =>
    have hrest := ih fun l₁ h₁ l₂ h₂ =>
        hcomm l₁ (List.mem_cons_of_mem l h₁) l₂ (List.mem_cons_of_mem l h₂)
    exact congrArg (Option.bind (sys.step s l)) (funext hrest)
  | swap l l' ls =>
    have hswap := hcomm l (List.mem_cons_of_mem l' List.mem_cons_self) l' List.mem_cons_self s
    have hbind := congrArg (Option.bind · fun s' => sys.run s' ls) hswap
    simpa [run, Option.bind_assoc] using hbind.symm
  | trans hperm₁ _ ih₁ ih₂ =>
    refine (ih₁ hcomm s).trans (ih₂ ?_ s)
    intro l₁ h₁ l₂ h₂
    exact hcomm l₁ (hperm₁.mem_iff.mpr h₁) l₂ (hperm₁.mem_iff.mpr h₂)

/-! ## The invariant rule -/

/-- A property that holds initially and is preserved by the steps that meet
    `ok` holds in every state of every run whose steps meet `ok`. -/
theorem ReachableUnder.invariant {ok : State → Label → Prop} {P : State → Prop}
    (hinit : P sys.init)
    (hstep : ∀ s l s', sys.ReachableUnder ok s → P s → ok s l → sys.step s l = some s' → P s')
    {s : State} (h : sys.ReachableUnder ok s) : P s := by
  induction h with
  | init => exact hinit
  | step hr hok hs ih => exact hstep _ _ _ hr ih hok hs

theorem Reachable.invariant {P : State → Prop} (hinit : P sys.init)
    (hstep : ∀ s l s', sys.Reachable s → P s → sys.step s l = some s' → P s')
    {s : State} (h : sys.Reachable s) : P s :=
  ReachableUnder.invariant hinit (fun s l s' hr hP _ hs => hstep s l s' hr hP hs) h

/-! ## Conditions along one replay -/

variable (sys)

/-- `P` holds in every state that the replay goes through. -/
def Throughout (P : State → Prop) (s : State) : List Label → Prop
  | [] => P s
  | l :: ls => P s ∧ ∀ s', sys.step s l = some s' → Throughout P s' ls

/-- Every step that the replay takes meets `ok`. -/
def EveryStep (ok : State → Label → Prop) (s : State) : List Label → Prop
  | [] => True
  | l :: ls => ∀ s', sys.step s l = some s' → ok s l ∧ EveryStep ok s' ls

/-- The labels meet `ok` where they are taken. -/
def Keeps (ok : State → Label → Prop) (s : State) : List Label → Prop
  | [] => True
  | l :: ls => ok s l ∧ ∀ s' ∈ sys.step s l, Keeps ok s' ls

instance Keeps.decidable (ok : State → Label → Prop) [∀ s l, Decidable (ok s l)] :
    ∀ (ls : List Label) (s : State), Decidable (sys.Keeps ok s ls)
  | [], _ => isTrue trivial
  | l :: ls, s =>
    have : ∀ s', Decidable (sys.Keeps ok s' ls) := Keeps.decidable ok ls
    inferInstanceAs (Decidable (ok s l ∧ ∀ s' ∈ sys.step s l, sys.Keeps ok s' ls))

variable {sys}

/-- The progress rule: if a label that meets `ok` is enabled in every state of
    the runs whose steps meet `ok`, then a replay that keeps to `ok` comes to
    its end. -/
theorem ReachableUnder.run_of_keeps {ok : State → Label → Prop}
    (hprogress : ∀ s l, sys.ReachableUnder ok s → ok s l → ∃ s', sys.step s l = some s') :
    ∀ (ls : List Label) {s : State}, sys.ReachableUnder ok s → sys.Keeps ok s ls →
      ∃ s', sys.run s ls = some s' ∧ sys.ReachableUnder ok s'
  | [], s, h, _ => ⟨s, rfl, h⟩
  | l :: ls, s, h, ⟨hok, hrest⟩ => by
    obtain ⟨s₁, hs₁⟩ := hprogress s l h hok
    obtain ⟨s', hrun, hr⟩ := run_of_keeps hprogress ls (.step h hok hs₁) (hrest s₁ hs₁)
    refine ⟨s', ?_, hr⟩
    rw [System.run, hs₁]
    exact hrun

theorem Throughout.head {P : State → Prop} {s : State} {ls : List Label}
    (h : sys.Throughout P s ls) : P s := by
  cases ls with
  | nil => exact h
  | cons l ls => exact h.1

/-- If a step from a state with `Inv` leads to `P` exactly when it meets
    `ok`, then `P` holds throughout a replay exactly when every step does. -/
theorem throughout_iff_everyStep {Inv P : State → Prop} {ok : State → Label → Prop}
    (hP : ∀ s, Inv s → P s)
    (hok : ∀ s l s', Inv s → sys.step s l = some s' → ok s l → Inv s')
    (hbad : ∀ s l s', Inv s → sys.step s l = some s' → ¬ ok s l → ¬ P s') :
    ∀ (ls : List Label) (s : State), Inv s → (sys.Throughout P s ls ↔ sys.EveryStep ok s ls) := by
  intro ls
  induction ls with
  | nil => exact fun s hs => iff_of_true (hP s hs) trivial
  | cons l ls ih =>
    intro s hs
    constructor
    · rintro ⟨_, hrest⟩ s' hs'
      have hthis : ok s l :=
        Classical.byContradiction fun hnot => hbad s l s' hs hs' hnot (hrest s' hs').head
      exact ⟨hthis, (ih s' (hok s l s' hs hs' hthis)).mp (hrest s' hs')⟩
    · intro hevery
      refine ⟨hP s hs, ?_⟩
      intro s' hs'
      obtain ⟨hthis, hrest⟩ := hevery s' hs'
      exact (ih s' (hok s l s' hs hs' hthis)).mpr hrest

end System

/-! ## Abstractions -/

/-- A view of the states of `sys`: every step from a reachable state is a
    move of the relation `Move` between the views, under the action `act`. -/
structure Abstraction (sys : System State Label) (View : Type*) (Act : Type*) where
  view : State → View
  act : State → Label → Act
  Move : View → Act → View → Prop
  sound : ∀ {s l s'}, sys.Reachable s → sys.step s l = some s' → Move (view s) (act s l) (view s')

/-- An invariant of the moves that meet `good` holds of the view of every
    state reached by runs whose steps meet `good`. -/
theorem Abstraction.invariant {sys : System State Label} {View : Type*} {Act : Type*}
    (A : Abstraction sys View Act) (Inv : View → Prop) (good : View → Act → Prop)
    (hinit : Inv (A.view sys.init))
    (hmove : ∀ v a v', Inv v → good v a → A.Move v a v' → Inv v') {s : State}
    (h : sys.ReachableUnder (fun s l => good (A.view s) (A.act s l)) s) : Inv (A.view s) :=
  h.invariant (P := fun s => Inv (A.view s)) hinit fun _ _ _ hr hinv hok hs =>
    hmove _ _ _ hinv hok (A.sound hr.reachable hs)

/-- The same rule, where the moves may use what is already known of the views
    of reachable states. -/
theorem Abstraction.invariant_given {sys : System State Label} {View : Type*} {Act : Type*}
    (A : Abstraction sys View Act) (Known : View → Prop)
    (hknown : ∀ s, sys.Reachable s → Known (A.view s)) (Inv : View → Prop)
    (good : View → Act → Prop) (hinit : Inv (A.view sys.init))
    (hmove : ∀ v a v', Known v → Inv v → good v a → A.Move v a v' → Inv v') {s : State}
    (h : sys.ReachableUnder (fun s l => good (A.view s) (A.act s l)) s) : Inv (A.view s) :=
  h.invariant (P := fun s => Inv (A.view s)) hinit fun _ _ _ hr hinv hok hs =>
    hmove _ _ _ (hknown _ hr.reachable) hinv hok (A.sound hr.reachable hs)

end LTS
