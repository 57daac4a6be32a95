import Mathlib.Algebra.NeZero
import Mathlib.Algebra.Order.Ring.Nat
import Mathlib.Data.Set.Function
import Mathlib.Data.Set.Lattice
import Mathlib.Data.Nat.Basic

/-! # Counting Loops over a Store

    The loop `for (i = start; i < stop; i += step)` with a body that
    transforms a state and can go wrong, and its rules:

    * `forLoop_invariant`: an invariant indexed by the counter, for total
      correctness: the loop ends and nothing goes wrong;
    * `forLoop_eq_none`: a round that always goes wrong.

    When the state is a store (a function from cells to values), many
    commands only overwrite a region of it by given values, whatever the
    store is (`Writes`). Such commands compose by the union of their regions,
    in sequence (`Writes.seq`) and in loops (`Writes.forLoop`), and two of
    them with the same region do the same (`Writes.unique`).
-/

namespace Loops

/-! ## Section 1: The loop -/

section States

variable {σ : Type*}

/-- A round brings the counter closer to the end. -/
theorem sub_add_lt {i stop step : Nat} [NeZero step] (h : i < stop) :
    stop - (i + step) < stop - i := by
  have hne : step ≠ 0 := NeZero.ne step
  omega

/-- `for (i = start; i < stop; i += step) body`; `none` when the body goes wrong. -/
def forLoop (i stop step : Nat) [NeZero step] (body : Nat → σ → Option σ) (s : σ) : Option σ :=
  if i < stop then (body i s).bind (forLoop (i + step) stop step body) else some s
termination_by stop - i
decreasing_by
  exact sub_add_lt ‹_›

/-- The values that the counter takes in the body. -/
def Round (start stop step i : Nat) : Prop := start ≤ i ∧ i < stop ∧ step ∣ i - start

@[simp] theorem round_one {start stop i : Nat} : Round start stop 1 i ↔ start ≤ i ∧ i < stop := by
  simp [Round]

@[simp] theorem round_zero {stop step i : Nat} : Round 0 stop step i ↔ i < stop ∧ step ∣ i := by
  simp [Round]

theorem Round.start {start stop step : Nat} (h : start < stop) : Round start stop step start :=
  ⟨Nat.le_refl _, h, by simp⟩

theorem Round.next {start stop step i : Nat} (h : Round (start + step) stop step i) :
    Round start stop step i := by
  obtain ⟨hle, hlt, k, hk⟩ := h
  refine ⟨by omega, hlt, k + 1, ?_⟩
  rw [Nat.mul_succ, ← hk]
  omega

/-- A round is the first one or one of the rest. -/
theorem Round.cases {start stop step i : Nat} (h : Round start stop step i) :
    i = start ∨ Round (start + step) stop step i := by
  obtain ⟨hle, hlt, k, hk⟩ := h
  cases k with
  | zero => exact .inl (by rw [Nat.mul_zero] at hk; omega)
  | succ k =>
    rw [Nat.mul_succ] at hk
    exact .inr ⟨by omega, hlt, k, by omega⟩

/-- When the step divides the end, the last round has a whole step left. -/
theorem Round.add_le {stop step i : Nat} (h : Round 0 stop step i) (hstop : step ∣ stop) :
    i + step ≤ stop := by
  obtain ⟨hlt, a, rfl⟩ := round_zero.mp h
  obtain ⟨b, rfl⟩ := hstop
  exact Nat.mul_le_mul_left step (Nat.lt_of_mul_lt_mul_left hlt)

/-- Every number before the end lies in the step of one round. -/
theorem Round.exists_of_lt {stop step x : Nat} [NeZero step] (hx : x < stop) :
    ∃ i, Round 0 stop step i ∧ i ≤ x ∧ x < i + step := by
  have hmod : x % step < step := Nat.mod_lt x (Nat.pos_of_ne_zero (NeZero.ne step))
  have hdiv : step * (x / step) + x % step = x := Nat.div_add_mod x step
  exact ⟨step * (x / step), round_zero.mpr ⟨by omega, Nat.dvd_mul_right _ _⟩, by omega, by omega⟩

variable {stop step : Nat} [NeZero step] {body : Nat → σ → Option σ}

theorem forLoop_of_lt {i : Nat} (h : i < stop) (s : σ) :
    forLoop i stop step body s = (body i s).bind (forLoop (i + step) stop step body) := by
  rw [forLoop, if_pos h]

theorem forLoop_of_ge {i : Nat} (h : stop ≤ i) (s : σ) : forLoop i stop step body s = some s := by
  rw [forLoop, if_neg (Nat.not_lt.mpr h)]

/-- A property that every round carries from one value of the counter to the
    next holds at the end of the loop. -/
theorem forLoop_invariant {Inv : Nat → σ → Prop} {start : Nat} {s : σ}
    (hbody : ∀ i s, Round start stop step i → Inv i s →
      ∃ s', body i s = some s' ∧ Inv (i + step) s')
    (hinit : Inv start s) :
    ∃ i s', forLoop start stop step body s = some s' ∧ stop ≤ i ∧ Inv i s' := by
  by_cases h : start < stop
  · obtain ⟨s₁, hs₁, hinv⟩ := hbody start s (.start h) hinit
    have hdec : stop - (start + step) < stop - start := sub_add_lt h
    obtain ⟨i, s', hrest, hi⟩ := forLoop_invariant (fun i s hi => hbody i s hi.next) hinv
    exact ⟨i, s', by rw [forLoop_of_lt h, hs₁]; exact hrest, hi⟩
  · exact ⟨start, s, forLoop_of_ge (Nat.not_lt.mp h) s, Nat.not_lt.mp h, hinit⟩
termination_by stop - start

/-- If the body goes wrong in one round whatever the state is, so does the loop. -/
theorem forLoop_eq_none {start i : Nat} (hi : Round start stop step i)
    (hbad : ∀ s, body i s = none) (s : σ) :
    forLoop start stop step body s = none := by
  have hlt : start < stop := Nat.lt_of_le_of_lt hi.1 hi.2.1
  rw [forLoop_of_lt hlt]
  rcases hi.cases with rfl | hnext
  · rw [hbad]
    rfl
  · have hdec : stop - (start + step) < stop - start := sub_add_lt hlt
    cases hbody : body start s with
    | none => rfl
    | some s₁ => exact forLoop_eq_none hnext hbad s₁
termination_by stop - start

end States

/-! ## Section 2: Overwriting a region -/

section Regions

variable {ι α : Type*}

/-- `g'` is `g` with the cells in `D` overwritten by `f`. -/
structure Overlay (D : Set ι) (f g g' : ι → α) : Prop where
  on : Set.EqOn g' f D
  off : Set.EqOn g' g Dᶜ

variable {D D₁ D₂ : Set ι} {f g g' g₁ g₂ : ι → α}

theorem Overlay.update [DecidableEq ι] (g : ι → α) {x : ι} {v : α} (hv : v = f x) :
    Overlay {x} f g (Function.update g x v) where
  on := by
    rintro _ rfl
    rw [Function.update_self, hv]
  off := fun y hy => Function.update_of_ne hy v g

theorem Overlay.trans (h₁ : Overlay D₁ f g g₁) (h₂ : Overlay D₂ f g₁ g₂) :
    Overlay (D₁ ∪ D₂) f g g₂ where
  on := by
    intro x hx
    by_cases hx₂ : x ∈ D₂
    · exact h₂.on hx₂
    · rw [h₂.off hx₂, h₁.on (hx.resolve_right hx₂)]
  off := by
    intro x hx
    rw [h₂.off fun hx₂ => hx (.inr hx₂), h₁.off fun hx₁ => hx (.inl hx₁)]

theorem Overlay.congr (h : Overlay D₁ f g g') (hD : ∀ x, x ∈ D₂ ↔ x ∈ D₁) : Overlay D₂ f g g' := by
  obtain rfl : D₂ = D₁ := Set.ext hD
  exact h

theorem Overlay.unique (h₁ : Overlay D f g g₁) (h₂ : Overlay D f g g₂) : g₁ = g₂ := by
  funext x
  by_cases hx : x ∈ D
  · rw [h₁.on hx, h₂.on hx]
  · rw [h₁.off hx, h₂.off hx]

/-- Whatever the store is, the command overwrites the cells in `D` by `f`. -/
def Writes (D : Set ι) (f : ι → α) (c : (ι → α) → Option (ι → α)) : Prop :=
  ∀ g, ∃ g', c g = some g' ∧ Overlay D f g g'

variable {c c₁ c₂ : (ι → α) → Option (ι → α)}

theorem Writes.skip : Writes (∅ : Set ι) f some :=
  fun g => ⟨g, rfl, fun _ hx => hx.elim, fun _ _ => rfl⟩

theorem Writes.seq (h₁ : Writes D₁ f c₁) (h₂ : Writes D₂ f c₂) :
    Writes (D₁ ∪ D₂) f fun g => (c₁ g).bind c₂ := by
  intro g
  obtain ⟨g₁, hg₁, ho₁⟩ := h₁ g
  obtain ⟨g₂, hg₂, ho₂⟩ := h₂ g₁
  exact ⟨g₂, Option.bind_eq_some_iff.mpr ⟨g₁, hg₁, hg₂⟩, ho₁.trans ho₂⟩

/-- The region may be described in another way. -/
theorem Writes.congr (h : Writes D₁ f c) (hD : ∀ x, x ∈ D₂ ↔ x ∈ D₁) : Writes D₂ f c := by
  intro g
  obtain ⟨g', hg', ho⟩ := h g
  exact ⟨g', hg', ho.congr hD⟩

theorem Writes.of_eq (h : Writes D f c₁) (heq : ∀ g, c₂ g = c₁ g) : Writes D f c₂ := by
  obtain rfl : c₂ = c₁ := funext heq
  exact h

/-- A loop overwrites what its rounds overwrite. -/
theorem Writes.forLoop {start stop step : Nat} [NeZero step] {D : Nat → Set ι}
    {body : Nat → (ι → α) → Option (ι → α)}
    (hbody : ∀ i, Round start stop step i → Writes (D i) f (body i)) :
    Writes {x | ∃ i, Round start stop step i ∧ x ∈ D i} f (forLoop start stop step body) := by
  by_cases h : start < stop
  · have hdec : stop - (start + step) < stop - start := sub_add_lt h
    have hrest : Writes {x | ∃ i, Round (start + step) stop step i ∧ x ∈ D i} f
        (Loops.forLoop (start + step) stop step body) :=
      Writes.forLoop fun i hi => hbody i hi.next
    have hloop : Loops.forLoop start stop step body =
        fun g => (body start g).bind (Loops.forLoop (start + step) stop step body) :=
      funext fun g => forLoop_of_lt h g
    rw [hloop]
    refine ((hbody start (.start h)).seq hrest).congr ?_
    intro x
    constructor
    · rintro ⟨i, hi, hx⟩
      rcases hi.cases with rfl | hnext
      · exact .inl hx
      · exact .inr ⟨i, hnext, hx⟩
    · rintro (hx | ⟨i, hi, hx⟩)
      · exact ⟨start, .start h, hx⟩
      · exact ⟨i, hi.next, hx⟩
  · have hskip : Loops.forLoop start stop step body = some :=
      funext fun g => forLoop_of_ge (Nat.not_lt.mp h) g
    rw [hskip]
    refine Writes.skip.congr ?_
    intro x
    refine iff_of_false ?_ (Set.notMem_empty x)
    rintro ⟨i, hi, _⟩
    exact h (Nat.lt_of_le_of_lt hi.1 hi.2.1)
termination_by stop - start

/-- Two commands that overwrite the same region by the same values agree. -/
theorem Writes.unique (h₁ : Writes D f c₁) (h₂ : Writes D f c₂) : c₁ = c₂ := by
  funext g
  obtain ⟨g₁, hg₁, ho₁⟩ := h₁ g
  obtain ⟨g₂, hg₂, ho₂⟩ := h₂ g
  rw [hg₁, hg₂, ho₁.unique ho₂]

end Regions

end Loops
