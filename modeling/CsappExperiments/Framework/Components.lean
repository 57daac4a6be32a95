import Mathlib.Algebra.BigOperators.Group.Finset.Basic
import Mathlib.Algebra.BigOperators.Group.Finset.Piecewise
import Mathlib.Data.List.Basic

/-! # Independent Components

    A state made of components, and events each of which reads and changes
    one of them: the one that its key names (`route`). Events can fail, and
    give a result when they do not (`run`).

    A run over all components is one run for each of them, on the events
    that it is given (`run_route_iff`). So the order of events at different
    components does not matter (`run_route_congr`, `run_route_swap`), and
    what is counted over all results is counted component by component
    (`count_eq_sum`).
-/

namespace Components

variable {ι σ τ ε ω : Type*}

/-! ## Section 1: Runs -/

/-- The results of a list of events and the state after it; `none` if an
    event fails. -/
def run (step : σ → ε → Option (ω × σ)) (s : σ) : List ε → Option (List ω × σ)
  | [] => some ([], s)
  | e :: es =>
    match step s e with
    | none => none
    | some (o, s') => (run step s' es).map fun (os, s'') => (o :: os, s'')

section Runs

variable {step : σ → ε → Option (ω × σ)} {s s' : σ} {e : ε} {es : List ε} {os : List ω}

theorem run_cons_iff :
    run step s (e :: es) = some (os, s') ↔
      ∃ o s₁ os', step s e = some (o, s₁) ∧ run step s₁ es = some (os', s') ∧ os = o :: os' := by
  rw [run]
  constructor
  · intro h
    split at h
    · cases h
    · next o s₁ hstep =>
      obtain ⟨⟨os', s''⟩, hrest, heq⟩ := Option.map_eq_some_iff.mp h
      obtain ⟨rfl, rfl⟩ := Prod.mk.inj heq
      exact ⟨o, s₁, os', hstep, hrest, rfl⟩
  · intro ⟨o, s₁, os', hstep, hrest, heq⟩
    rw [heq]
    simp only [hstep, hrest, Option.map_some]

theorem run_append {es₁ es₂ : List ε} :
    run step s (es₁ ++ es₂) = some (os, s') ↔
      ∃ os₁ s₁ os₂, run step s es₁ = some (os₁, s₁) ∧ run step s₁ es₂ = some (os₂, s') ∧
        os = os₁ ++ os₂ := by
  induction es₁ generalizing s os with
  | nil => simp [run]
  | cons e es₁ ih =>
    rw [List.cons_append, run_cons_iff]
    constructor
    · intro ⟨o, s₁, os', hstep, hrest, heq⟩
      obtain ⟨os₁, s₂, os₂, hrun₁, hrun₂, hos'⟩ := ih.mp hrest
      exact ⟨o :: os₁, s₂, os₂, run_cons_iff.mpr ⟨o, s₁, os₁, hstep, hrun₁, rfl⟩,
        hrun₂, by rw [heq, hos']; rfl⟩
    · intro ⟨os₁, s₂, os₂, hrun₁, hrun₂, heq⟩
      obtain ⟨o, s₁, os', hstep, hrest, hos₁⟩ := run_cons_iff.mp hrun₁
      exact ⟨o, s₁, os' ++ os₂, hstep, ih.mpr ⟨os', s₂, os₂, hrest, hrun₂, rfl⟩,
        by rw [heq, hos₁]; rfl⟩

theorem length_of_run (h : run step s es = some (os, s')) : os.length = es.length := by
  induction es generalizing s os with
  | nil =>
    obtain ⟨rfl, _⟩ : [] = os ∧ s = s' := by simpa [run] using h
    rfl
  | cons e es ih =>
    obtain ⟨o, s₁, os', _, hrest, rfl⟩ := run_cons_iff.mp h
    rw [List.length_cons, List.length_cons, ih hrest]

/-- If events preserve `P` and do not fail in states with `P`, runs do not fail either. -/
theorem exists_run {P : σ → Prop} (hstep : ∀ s e, P s → ∃ o s', step s e = some (o, s') ∧ P s')
    (hs : P s) (es : List ε) : ∃ os s', run step s es = some (os, s') ∧ P s' := by
  induction es generalizing s with
  | nil => exact ⟨[], s, rfl, hs⟩
  | cons e es ih =>
    obtain ⟨o, s₁, he, hs₁⟩ := hstep s e hs
    obtain ⟨os, s', hrest, hs'⟩ := ih hs₁
    exact ⟨o :: os, s', run_cons_iff.mpr ⟨o, s₁, os, he, hrest, rfl⟩, hs'⟩

/-- A view of the states that carries one step function over to another carries runs over. -/
theorem run_map {step' : τ → ε → Option (ω × τ)} {P : σ → Prop} {view : σ → τ}
    (hview : ∀ s e, P s → (step s e).map (Prod.map id view) = step' (view s) e)
    (hP : ∀ s e o s', P s → step s e = some (o, s') → P s') (hs : P s) (es : List ε) :
    (run step s es).map (Prod.map id view) = run step' (view s) es := by
  induction es generalizing s with
  | nil => rfl
  | cons e es ih =>
    have he := hview s e hs
    rw [run, run, ← he]
    cases hstep : step s e with
    | none => rfl
    | some r =>
      obtain ⟨o, s₁⟩ := r
      show ((run step s₁ es).map _).map _ = (run step' (view s₁) es).map _
      rw [← ih (hP s e o s₁ hs hstep), Option.map_map, Option.map_map]
      rfl

end Runs

/-! ## Section 2: Routing events to components -/

variable [DecidableEq ι]

/-- The event changes the component that its key names. -/
def route (key : ε → ι) (step : σ → ε → Option (ω × σ)) (st : ι → σ) (e : ε) :
    Option (ω × (ι → σ)) :=
  (step (st (key e)) e).map fun (o, s) => (o, Function.update st (key e) s)

/-- The events for component `i`. -/
def eventsAt (key : ε → ι) (i : ι) (es : List ε) : List ε := es.filter fun e => key e = i

/-- Their results, among the results of all events. -/
def resultsAt (key : ε → ι) (i : ι) (es : List ε) (os : List ω) : List ω :=
  ((es.zip os).filter fun r => key r.1 = i).map Prod.snd

variable {key : ε → ι} {step : σ → ε → Option (ω × σ)} {st st' : ι → σ}
  {e e₁ e₂ : ε} {es es' : List ε} {o : ω} {os os' : List ω} {i : ι}

theorem route_iff :
    route key step st e = some (o, st') ↔
      ∃ s, step (st (key e)) e = some (o, s) ∧ st' = Function.update st (key e) s := by
  rw [route, Option.map_eq_some_iff]
  constructor
  · intro ⟨⟨o', s⟩, hstep, heq⟩
    obtain ⟨rfl, rfl⟩ := Prod.mk.inj heq
    exact ⟨s, hstep, rfl⟩
  · intro ⟨s, hstep, heq⟩
    exact ⟨(o, s), hstep, by rw [heq]⟩

@[simp] theorem eventsAt_cons_self :
    eventsAt key (key e) (e :: es) = e :: eventsAt key (key e) es := by
  simp [eventsAt]

theorem eventsAt_cons_ne (h : key e ≠ i) : eventsAt key i (e :: es) = eventsAt key i es := by
  simp [eventsAt, h]

@[simp] theorem eventsAt_eventsAt : eventsAt key i (eventsAt key i es) = eventsAt key i es := by
  simp [eventsAt]

@[simp] theorem resultsAt_cons_self :
    resultsAt key (key e) (e :: es) (o :: os) = o :: resultsAt key (key e) es os := by
  simp [resultsAt]

theorem resultsAt_cons_ne (h : key e ≠ i) :
    resultsAt key i (e :: es) (o :: os) = resultsAt key i es os := by
  simp [resultsAt, h]

/-- When all events are for one component, all results are. -/
theorem resultsAt_of_forall (h : ∀ e ∈ es, key e = i) (hlen : os.length = es.length) :
    resultsAt key i es os = os := by
  have hall : (es.zip os).filter (fun r => key r.1 = i) = es.zip os := by
    apply List.filter_eq_self.mpr
    intro r hr
    simpa using h r.1 (List.of_mem_zip hr).1
  rw [resultsAt, hall]
  exact List.map_snd_zip (by omega)

/-- A run over all components is one run for each component. -/
theorem run_route_iff :
    run (route key step) st es = some (os, st') ↔
      os.length = es.length ∧
        ∀ i, run step (st i) (eventsAt key i es) = some (resultsAt key i es os, st' i) := by
  induction es generalizing st os with
  | nil =>
    constructor
    · intro h
      obtain ⟨rfl, rfl⟩ : [] = os ∧ st = st' := by simpa [run] using h
      exact ⟨rfl, fun i => rfl⟩
    · intro ⟨hlen, h⟩
      have hos : os = [] := List.length_eq_zero_iff.mp hlen
      have hst : st = st' :=
        funext fun i => by simpa [run, eventsAt] using congrArg (Option.map Prod.snd) (h i)
      rw [hos, hst]
      rfl
  | cons e es ih =>
    constructor
    · intro h
      obtain ⟨o, st₁, os', hroute, hrest, rfl⟩ := run_cons_iff.mp h
      obtain ⟨s₁, hstep, rfl⟩ := route_iff.mp hroute
      obtain ⟨hlen, hruns⟩ := ih.mp hrest
      refine ⟨by rw [List.length_cons, List.length_cons, hlen], ?_⟩
      intro i
      have hi := hruns i
      -- only the component of `e` sees the event
      by_cases hkey : key e = i
      · subst hkey
        rw [Function.update_self] at hi
        rw [eventsAt_cons_self, resultsAt_cons_self]
        exact run_cons_iff.mpr ⟨o, s₁, _, hstep, hi, rfl⟩
      · rw [Function.update_of_ne (Ne.symm hkey)] at hi
        rw [eventsAt_cons_ne hkey, resultsAt_cons_ne hkey]
        exact hi
    · intro ⟨hlen, hruns⟩
      obtain ⟨o, os', rfl⟩ : ∃ o os', os = o :: os' := List.exists_cons_of_length_eq_add_one hlen
      have hkey := hruns (key e)
      rw [eventsAt_cons_self, resultsAt_cons_self] at hkey
      obtain ⟨o', s₁, os₁, hstep, hrest, heq⟩ := run_cons_iff.mp hkey
      obtain ⟨rfl, rfl⟩ := List.cons.inj heq
      apply run_cons_iff.mpr
      refine ⟨o, Function.update st (key e) s₁, os', route_iff.mpr ⟨s₁, hstep, rfl⟩, ?_, rfl⟩
      refine ih.mpr ⟨by simpa using hlen, ?_⟩
      intro i
      by_cases hi : key e = i
      · subst hi
        rw [Function.update_self]
        exact hrest
      · have hruns' := hruns i
        rw [eventsAt_cons_ne hi, resultsAt_cons_ne hi] at hruns'
        rw [Function.update_of_ne (Ne.symm hi)]
        exact hruns'

/-- Two runs that give every component the same events. -/
theorem run_route_congr {st'' : ι → σ} (hsame : ∀ i, eventsAt key i es = eventsAt key i es')
    (h : run (route key step) st es = some (os, st'))
    (h' : run (route key step) st es' = some (os', st'')) :
    st' = st'' ∧ ∀ i, resultsAt key i es os = resultsAt key i es' os' := by
  have hboth : ∀ i, resultsAt key i es os = resultsAt key i es' os' ∧ st' i = st'' i := by
    intro i
    have hi := (run_route_iff.mp h).2 i
    rw [hsame i, (run_route_iff.mp h').2 i] at hi
    obtain ⟨hresults, hst⟩ := Prod.mk.inj (Option.some.inj hi)
    exact ⟨hresults.symm, hst.symm⟩
  exact ⟨funext fun i => (hboth i).2, fun i => (hboth i).1⟩

/-- Two events for different components may be swapped. -/
theorem run_route_swap (hne : key e₁ ≠ key e₂)
    (h : run (route key step) st (e₁ :: e₂ :: es) = some (os, st')) :
    ∃ o₁ o₂ os', os = o₁ :: o₂ :: os' ∧
      run (route key step) st (e₂ :: e₁ :: es) = some (o₂ :: o₁ :: os', st') := by
  obtain ⟨o₁, st₁, os₁, hroute₁, hrest₁, rfl⟩ := run_cons_iff.mp h
  obtain ⟨o₂, st₂, os', hroute₂, hrest, rfl⟩ := run_cons_iff.mp hrest₁
  obtain ⟨s₁, hstep₁, rfl⟩ := route_iff.mp hroute₁
  obtain ⟨s₂, hstep₂, rfl⟩ := route_iff.mp hroute₂
  -- neither event sees what the other one changes
  rw [Function.update_of_ne (Ne.symm hne)] at hstep₂
  have hstep₁' : step (Function.update st (key e₂) s₂ (key e₁)) e₁ = some (o₁, s₁) := by
    rw [Function.update_of_ne hne]
    exact hstep₁
  rw [Function.update_comm hne] at hrest
  have hrest₂ := run_cons_iff.mpr ⟨o₁, _, os', route_iff.mpr ⟨s₁, hstep₁', rfl⟩, hrest, rfl⟩
  exact ⟨o₁, o₂, os', rfl,
    run_cons_iff.mpr ⟨o₂, _, _, route_iff.mpr ⟨s₂, hstep₂, rfl⟩, hrest₂, rfl⟩⟩

/-- Results are counted component by component. -/
theorem count_eq_sum [DecidableEq ω] {I : Finset ι} (hI : ∀ e ∈ es, key e ∈ I)
    (hlen : os.length = es.length) (o : ω) :
    os.count o = ∑ i ∈ I, (resultsAt key i es os).count o := by
  induction es generalizing os with
  | nil =>
    obtain rfl : os = [] := List.length_eq_zero_iff.mp hlen
    simp [resultsAt]
  | cons e es ih =>
    obtain ⟨o', os', rfl⟩ : ∃ o' os', os = o' :: os' := List.exists_cons_of_length_eq_add_one hlen
    have hrest := ih (fun e' he' => hI e' (List.mem_cons_of_mem e he')) (by simpa using hlen)
    have hcount : ∀ i, (resultsAt key i (e :: es) (o' :: os')).count o =
        (resultsAt key i es os').count o + if key e = i then (if o' = o then 1 else 0) else 0 := by
      intro i
      by_cases hi : key e = i
      · subst hi
        simp [List.count_cons]
      · rw [resultsAt_cons_ne hi, if_neg hi, Nat.add_zero]
    calc (o' :: os').count o = os'.count o + if o' = o then 1 else 0 := by simp [List.count_cons]
      _ = ∑ i ∈ I, (resultsAt key i es os').count o +
            ∑ i ∈ I, if key e = i then (if o' = o then 1 else 0) else 0 := by
          rw [hrest, Finset.sum_ite_eq, if_pos (hI e List.mem_cons_self)]
      _ = ∑ i ∈ I, (resultsAt key i (e :: es) (o' :: os')).count o := by
          rw [← Finset.sum_add_distrib]
          exact Finset.sum_congr rfl fun i _ => (hcount i).symm

end Components
