import CsappExperiments.Framework.Loops

/-! # Programs with a Log

    A program that is instrumented: besides its state it carries a log, to
    which some of its commands add an entry. `Instruments entries c c'` says
    that the instrumented `c'` does what `c` does, and adds just these
    entries, whatever the state is. So the entries do not depend on it.

    The relation is kept by sequences of commands (`Instruments.read`,
    `Instruments.write`, `Instruments.seq`) and by counting loops
    (`Instruments.forLoop`). With it a program and its log are compared
    command by command.
-/

open Loops

namespace Logging

variable {σ ε α : Type*}

/-! ## Section 1: Instrumented commands -/

/-- `c'` is `c`, and adds the entries to the log when it succeeds. -/
def Instruments (entries : List ε) (c : σ → Option σ) (c' : σ × List ε → Option (σ × List ε)) :
    Prop :=
  ∀ s log, c' (s, log) = (c s).map fun s' => (s', log ++ entries)

/-- A value is read, with an entry. -/
def logRead (get : σ → Option α) (entry : ε) (t : σ × List ε) : Option (α × σ × List ε) :=
  (get t.1).map fun v => (v, t.1, t.2 ++ [entry])

/-- The state is changed, with an entry. -/
def logWrite (put : σ → Option σ) (entry : ε) (t : σ × List ε) : Option (σ × List ε) :=
  (put t.1).map fun s => (s, t.2 ++ [entry])

namespace Instruments

variable {entries entries₁ entries₂ : List ε} {entry : ε} {c c₁ c₂ : σ → Option σ}
  {c' c₁' c₂' : σ × List ε → Option (σ × List ε)} {get : σ → Option α} {put : σ → Option σ}

theorem skip : Instruments ([] : List ε) (some : σ → Option σ) some := by
  intro s log
  rw [Option.map_some, List.append_nil]

theorem seq (h₁ : Instruments entries₁ c₁ c₁') (h₂ : Instruments entries₂ c₂ c₂') :
    Instruments (entries₁ ++ entries₂) (fun s => (c₁ s).bind c₂) fun t => (c₁' t).bind c₂' := by
  intro s log
  dsimp only
  rw [h₁]
  cases c₁ s with
  | none => rfl
  | some s₁ =>
    show c₂' (s₁, log ++ entries₁) = _
    rw [h₂, Option.bind_some, List.append_assoc]

/-- A command on its own. -/
theorem last : Instruments [entry] put (logWrite put entry) := fun _ _ => rfl

theorem write (h : Instruments entries c c') :
    Instruments (entry :: entries) (fun s => (put s).bind c) fun t =>
      (logWrite put entry t).bind c' :=
  last.seq h

/-- What follows may depend on the value, but not what it adds to the log. -/
theorem read {f : α → σ → Option σ} {f' : α → σ × List ε → Option (σ × List ε)}
    (h : ∀ v, Instruments entries (f v) (f' v)) :
    Instruments (entry :: entries) (fun s => (get s).bind fun v => f v s)
      fun t => (logRead get entry t).bind fun r => f' r.1 r.2 := by
  intro s log
  dsimp only [logRead]
  cases get s with
  | none => rfl
  | some v =>
    show f' v (s, log ++ [entry]) = (f v s).map _
    rw [h, List.append_assoc, List.singleton_append]

theorem of_eq {d : σ → Option σ} {d' : σ × List ε → Option (σ × List ε)}
    (h : Instruments entries c c') (hd : ∀ s, d s = c s) (hd' : ∀ t, d' t = c' t) :
    Instruments entries d d' := by
  obtain rfl : d = c := funext hd
  obtain rfl : d' = c' := funext hd'
  exact h

end Instruments

/-! ## Section 2: Loops -/

/-- The values of the counter, in order. -/
def rounds (start stop step : Nat) : List Nat :=
  List.range' start ((stop - start + (step - 1)) / step) step

theorem rounds_of_lt {start stop step : Nat} [NeZero step] (h : start < stop) :
    rounds start stop step = start :: rounds (start + step) stop step := by
  have hpos : 0 < step := Nat.pos_of_ne_zero (NeZero.ne step)
  have hcount : (stop - start + (step - 1)) / step =
      (stop - (start + step) + (step - 1)) / step + 1 := by
    by_cases hle : start + step ≤ stop
    · rw [← Nat.add_div_right _ hpos]
      congr 1
      omega
    · -- the last round
      have hzero : (stop - (start + step) + (step - 1)) / step = 0 := Nat.div_eq_of_lt (by omega)
      rw [hzero, Nat.div_eq_iff hpos]
      omega
  unfold rounds
  rw [hcount, List.range'_succ]

theorem rounds_of_ge {start stop step : Nat} [NeZero step] (h : stop ≤ start) :
    rounds start stop step = [] := by
  have hpos : 0 < step := Nat.pos_of_ne_zero (NeZero.ne step)
  have hzero : (stop - start + (step - 1)) / step = 0 := Nat.div_eq_of_lt (by omega)
  rw [rounds, hzero, List.range'_zero]

theorem mem_rounds_iff {start stop step i : Nat} [NeZero step] :
    i ∈ rounds start stop step ↔ Round start stop step i := by
  by_cases h : start < stop
  · have hdec : stop - (start + step) < stop - start := sub_add_lt h
    rw [rounds_of_lt h, List.mem_cons, mem_rounds_iff]
    constructor
    · rintro (rfl | hi)
      · exact .start h
      · exact hi.next
    · exact Round.cases
  · rw [rounds_of_ge (Nat.not_lt.mp h)]
    refine iff_of_false List.not_mem_nil fun hi => ?_
    exact h (Nat.lt_of_le_of_lt hi.1 hi.2.1)
termination_by stop - start

/-- A loop adds what its rounds add. -/
theorem Instruments.forLoop {start stop step : Nat} [NeZero step] {entries : Nat → List ε}
    {body : Nat → σ → Option σ} {body' : Nat → σ × List ε → Option (σ × List ε)}
    (h : ∀ i, Round start stop step i → Instruments (entries i) (body i) (body' i)) :
    Instruments ((rounds start stop step).flatMap entries) (forLoop start stop step body)
      (Loops.forLoop start stop step body') := by
  by_cases hlt : start < stop
  · have hdec : stop - (start + step) < stop - start := sub_add_lt hlt
    have hrest : Instruments ((rounds (start + step) stop step).flatMap entries)
        (Loops.forLoop (start + step) stop step body)
          (Loops.forLoop (start + step) stop step body') :=
      Instruments.forLoop fun i hi => h i hi.next
    rw [rounds_of_lt hlt, List.flatMap_cons]
    exact ((h start (.start hlt)).seq hrest).of_eq (forLoop_of_lt hlt) (forLoop_of_lt hlt)
  · have hge := Nat.not_lt.mp hlt
    rw [rounds_of_ge hge]
    exact skip.of_eq (forLoop_of_ge hge) (forLoop_of_ge hge)
termination_by stop - start

end Logging
