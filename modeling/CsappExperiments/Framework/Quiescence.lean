import CsappExperiments.Framework.System

/-! # Coming to rest

    A system whose labels are its own steps or steps of its surroundings.
    `Drains own load`: the number `load s` bounds the own steps that the
    system can still take in `s`. Left alone, it then comes to rest: a state
    in which no own label is enabled.

    * `Drains.length_le`: the bound, for every run of own steps.
    * `Drains.exists_rest`: such a run, up to a state at rest.
-/

namespace LTS

variable {State : Type*} {Label : Type*}

namespace System

variable (sys : System State Label)

/-! ## Rest -/

/-- A replay whose labels are all own steps. -/
def OwnRun (own : Label → Prop) (s : State) (ls : List Label) (s' : State) : Prop :=
  (∀ l ∈ ls, own l) ∧ sys.run s ls = some s'

/-- No own step is enabled. -/
def AtRest (own : Label → Prop) (s : State) : Prop := ∀ l, own l → sys.step s l = none

/-- Every own step from a reachable state uses up some of the load. -/
structure Drains (own : Label → Prop) (load : State → Nat) : Prop where
  drops : ∀ {s l s'}, sys.Reachable s → own l → sys.step s l = some s' → load s' < load s

variable {sys} {own : Label → Prop} {load : State → Nat}

theorem OwnRun.reachable {s s' : State} {ls : List Label} (h : sys.OwnRun own s ls s')
    (hr : sys.Reachable s) :
    sys.Reachable s' := hr.run ls h.2

/-! ## The load bounds the own steps -/

theorem Drains.length_le (hd : sys.Drains own load) {ls : List Label} {s s' : State}
    (hr : sys.Reachable s) (h : sys.OwnRun own s ls s') : ls.length + load s' ≤ load s := by
  induction ls generalizing s with
  | nil =>
    obtain rfl : s = s' := Option.some.inj h.2
    simp
  | cons l ls ih =>
    obtain ⟨hown, hrun⟩ := h
    obtain ⟨s₁, hs₁, hrest⟩ := Option.bind_eq_some_iff.mp hrun
    have hdrop : load s₁ < load s := hd.drops hr (hown l List.mem_cons_self) hs₁
    have htail : ls.length + load s' ≤ load s₁ :=
      ih (hr.step hs₁) ⟨fun l' hl' => hown l' (List.mem_cons_of_mem l hl'), hrest⟩
    rw [List.length_cons]
    omega

theorem Drains.exists_rest (hd : sys.Drains own load) {s : State} (hr : sys.Reachable s) :
    ∃ ls s', sys.OwnRun own s ls s' ∧ sys.AtRest own s' := by
  -- by induction on the load: at rest, or an own step leads to a smaller one
  induction hload : load s using Nat.strongRecOn generalizing s with
  | _ n ih =>
    subst hload
    by_cases hrest : sys.AtRest own s
    · exact ⟨[], s, ⟨fun l hl => absurd hl List.not_mem_nil, rfl⟩, hrest⟩
    · obtain ⟨l, hl⟩ := Classical.not_forall.mp hrest
      obtain ⟨hown, hstep⟩ := Classical.not_imp.mp hl
      obtain ⟨s₁, hs₁⟩ := Option.ne_none_iff_exists'.mp hstep
      obtain ⟨ls, s', ⟨howns, hrun⟩, hrest'⟩ := ih _ (hd.drops hr hown hs₁) (hr.step hs₁) rfl
      refine ⟨l :: ls, s', ⟨?_, ?_⟩, hrest'⟩
      · exact List.forall_mem_cons.mpr ⟨hown, howns⟩
      · rw [run, hs₁]
        exact hrun

end System

end LTS
