import CsappExperiments.Framework.Smallest
import Mathlib.Data.List.Induction

/-! # Malloc Lab: the K-best scheme

    `fcyc.c` measures a function again and again, and keeps the `kbest`
    smallest measurements in the array `values`. It stops when these have
    converged, or when there are `maxsamples` of them.

    The measurements are given, and so is the test that the smallest one and
    the `kbest`-th are close to each other, which is made in floating point.
    `fcyc_best` says what comes out.
-/

open Smallest

namespace MallocLab

variable {V : Type} [LinearOrder V]

/-! ## Section 1: fcyc.c -/

structure Sampler (V : Type) where
  values : List V
  samplecount : Nat

/-- `init_sampler`. `calloc` fills the array with zeros. -/
def initSampler (zero : V) (kbest : Nat) : Sampler V := ⟨List.replicate kbest zero, 0⟩

/-- The loop of `add_sample`, from `pos` on. -/
def insertionSort (values : List V) : Nat → Option (List V)
  | 0 => some values
  | pos + 1 => do
    let left ← values[pos]?
    let right ← values[pos + 1]?
    if right < left then insertionSort ((values.set pos right).set (pos + 1) left) pos
    else some values

/-- `values[pos] = val`. -/
def storeValue (values : List V) (pos : Nat) (val : V) : Option (List V) :=
  if pos < values.length then some (values.set pos val) else none

/-- `add_sample`. -/
def addSample (kbest : Nat) (s : Sampler V) (val : V) : Option (Sampler V) :=
  if s.samplecount < kbest then do
    let values ← storeValue s.values s.samplecount val
    return ⟨← insertionSort values s.samplecount, s.samplecount + 1⟩
  else do
    let last ← s.values[kbest - 1]?
    if val < last then
      let values ← storeValue s.values (kbest - 1) val
      return ⟨← insertionSort values (kbest - 1), s.samplecount + 1⟩
    else return ⟨← insertionSort s.values 0, s.samplecount + 1⟩

/-- `has_converged`, where `close` is the comparison of the smallest value
    with the last one. -/
def hasConverged (kbest : Nat) (close : V → V → Bool) (s : Sampler V) : Option Bool :=
  if kbest ≤ s.samplecount then do
    let best ← s.values[0]?
    let last ← s.values[kbest - 1]?
    return close best last
  else some false

/-- The loop of `fcyc`. Each round adds a sample, so `maxsamples` rounds are
    enough, or the one that is always made. -/
def fcycLoop (kbest maxsamples : Nat) (close : V → V → Bool) (measured : Nat → V) :
    Nat → Sampler V → Option (Sampler V)
  | 0, _ => none
  | fuel + 1, s => do
    let s ← addSample kbest s (measured s.samplecount)
    let converged ← hasConverged kbest close s
    if !converged ∧ s.samplecount < maxsamples then fcycLoop kbest maxsamples close measured fuel s
    else return s

/-- `fcyc`. Sample `i` is `measured i`, of the counter with or without
    compensation. -/
def fcyc (zero : V) (kbest maxsamples : Nat) (close : V → V → Bool) (measured : Nat → V) :
    Option V := do
  let s ← fcycLoop kbest maxsamples close measured (maxsamples + 1) (initSampler zero kbest)
  s.values[0]?

/-! ## Section 2: One sample -/

/-- The loop moves an element to its place among those in front of it. -/
theorem insertionSort_eq {l rest : List V} (h : Sorted l) (x : V) :
    insertionSort (l ++ x :: rest) l.length = some (insertInto x l ++ rest) := by
  induction l using List.reverseRecOn generalizing rest with
  | nil => rfl
  | append_singleton l a ih =>
    have hl := (List.pairwise_append.mp h).1
    have hleft : (l ++ [a] ++ x :: rest)[l.length]? = some a := by simp
    have hright : (l ++ [a] ++ x :: rest)[l.length + 1]? = some x := by simp
    rw [List.length_append, List.length_singleton, insertionSort, hleft, hright]
    show (if x < a then _ else _) = _
    by_cases hxa : x < a
    · have hswap : (((l ++ [a] ++ x :: rest).set l.length x).set (l.length + 1) a) =
          l ++ x :: (a :: rest) := by simp
      rw [if_pos hxa, hswap, ih hl, insert_right h hxa.le, List.append_assoc]
      rfl
    · have hle : ∀ y ∈ l ++ [a], y ≤ x := by
        intro y hy
        rcases List.mem_append.mp hy with hy | hy
        · exact ((List.pairwise_append.mp h).2.2 y hy a (List.mem_singleton_self a)).trans
            (not_lt.mp hxa)
        · rw [List.mem_singleton.mp hy]
          exact not_lt.mp hxa
      rw [if_neg hxa, insert_stop h hle, List.append_assoc (l ++ [a])]
      rfl

/-- The samples in the order in which they were taken. -/
def samples (measured : Nat → V) (n : Nat) : List V := (List.range n).map measured

/-- The array holds the smallest samples, in order, and then zeros. -/
structure Holds (zero : V) (kbest : Nat) (xs : List V) (s : Sampler V) : Prop where
  count : s.samplecount = xs.length
  values : s.values = smallest kbest xs ++ List.replicate (kbest - xs.length) zero

variable {zero : V} {kbest maxsamples : Nat} {close : V → V → Bool} {measured : Nat → V}
  {xs : List V} {s : Sampler V}

theorem holds_initSampler (zero : V) (kbest : Nat) :
    Holds zero kbest [] (initSampler zero kbest) where
  count := rfl
  values := by simp [initSampler, smallest]

theorem Holds.full (h : Holds zero kbest xs s) (hfull : kbest ≤ xs.length) :
    s.values = smallest kbest xs := by
  rw [h.values, Nat.sub_eq_zero_of_le hfull, List.replicate_zero, List.append_nil]

/-- The array after one more sample. -/
theorem Holds.addSample (h : Holds zero kbest xs s) (hk : 0 < kbest) (val : V) :
    ∃ s', addSample kbest s val = some s' ∧ Holds zero kbest (xs ++ [val]) s' := by
  have hperm : smallest kbest (xs ++ [val]) = smallest kbest (val :: xs) :=
    smallest_perm (List.perm_append_singleton val xs)
  have hcount : s.samplecount + 1 = (xs ++ [val]).length := by rw [List.length_append, h.count]; rfl
  unfold MallocLab.addSample
  by_cases hroom : s.samplecount < kbest
  · -- there is room: the value is stored behind the others, and moved to its place
    have hlen : (smallest kbest xs).length = s.samplecount := by
      rw [length_smallest, ← h.count]
      omega
    obtain ⟨m, hm⟩ : ∃ m, kbest - xs.length = m + 1 :=
      ⟨kbest - xs.length - 1, by have := h.count; omega⟩
    have hstore : storeValue s.values s.samplecount val =
        some (smallest kbest xs ++ val :: List.replicate m zero) := by
      rw [storeValue, h.values, hm, if_pos]
      · rw [← hlen, List.set_append_right _ _ (Nat.le_refl _), Nat.sub_self]
        rfl
      · simp [hlen]
    have hsorted :
        insertionSort (smallest kbest xs ++ val :: List.replicate m zero) s.samplecount = some _ :=
      hlen ▸ insertionSort_eq (sorted_smallest kbest xs) val
    refine ⟨⟨insertInto val (smallest kbest xs) ++ List.replicate m zero, s.samplecount + 1⟩, ?_,
      hcount, ?_⟩
    · rw [if_pos hroom, hstore]
      show (insertionSort _ _).bind _ = _
      rw [hsorted]
      rfl
    · show insertInto val (smallest kbest xs) ++ List.replicate m zero = _
      rw [hperm, smallest_cons_of_lt (h.count ▸ hroom), List.length_append, List.length_singleton]
      congr 2
      omega
  · -- the array is full: the value takes the place of the largest one, or is dropped
    obtain ⟨k, rfl⟩ := Nat.exists_eq_succ_of_ne_zero hk.ne'
    have hfull : k + 1 ≤ xs.length := by have := h.count; omega
    have hvalues := h.full hfull
    have hlen : (smallest (k + 1) xs).length = k + 1 := by
      rw [length_smallest]
      omega
    have hlast : (smallest (k + 1) xs)[k]? = some (smallest (k + 1) xs)[k] :=
      List.getElem?_eq_getElem (by omega)
    generalize hl : (smallest (k + 1) xs)[k] = last at hlast
    have hzeros : List.replicate (k + 1 - (xs ++ [val]).length) zero = [] := by
      rw [List.length_append, Nat.sub_eq_zero_of_le (by omega)]
      rfl
    rw [if_neg hroom, hvalues, Nat.succ_sub_one, hlast]
    show ∃ s', (if val < last then _ else _) = some s' ∧ _
    by_cases hsmall : val < last
    · have hstore : storeValue (smallest (k + 1) xs) k val =
          some ((smallest (k + 1) xs).take k ++ val :: []) := by
        rw [storeValue, if_pos (by omega), List.set_eq_take_append_cons_drop, if_pos (by omega),
          List.drop_of_length_le hlen.le]
      have htake : ((smallest (k + 1) xs).take k).length = k := by
        rw [List.length_take]
        omega
      have hsorted : insertionSort ((smallest (k + 1) xs).take k ++ val :: []) k =
          some (insertInto val ((smallest (k + 1) xs).take k) ++ []) := by
        have hrun := @insertionSort_eq V _ ((smallest (k + 1) xs).take k) []
            (sorted_smallest (k + 1) xs).take val
        rwa [htake] at hrun
      refine ⟨⟨insertInto val ((smallest (k + 1) xs).take k) ++ [], s.samplecount + 1⟩, ?_,
        hcount, ?_⟩
      · rw [if_pos hsmall, hstore]
        show (insertionSort _ _).bind _ = _
        rw [hsorted]
        rfl
      · rw [hperm, hzeros, smallest_cons_of_small hlast hsmall]
    · refine ⟨⟨smallest (k + 1) xs, s.samplecount + 1⟩, ?_, hcount, ?_⟩
      · rw [if_neg hsmall]
        rfl
      · rw [hperm, hzeros, smallest_cons_of_large hlast (not_lt.mp hsmall), List.append_nil]

/-! ## Section 3: The whole measurement -/

/-- The `kbest` smallest samples are close to each other. -/
def Converges (kbest : Nat) (close : V → V → Bool) (xs : List V) : Prop :=
  kbest ≤ xs.length ∧ ∃ best last, (smallest kbest xs)[0]? = some best ∧
    (smallest kbest xs)[kbest - 1]? = some last ∧
    close best last = true

/-- The loop ends after these samples. -/
def Stops (kbest maxsamples : Nat) (close : V → V → Bool) (xs : List V) : Prop :=
  Converges kbest close xs ∨ maxsamples ≤ xs.length

theorem Holds.hasConverged (h : Holds zero kbest xs s) (hk : 0 < kbest) (close : V → V → Bool) :
    ∃ converged, hasConverged kbest close s = some converged ∧
      (converged = true ↔ Converges kbest close xs) := by
  unfold MallocLab.hasConverged Converges
  rw [h.count]
  by_cases hfull : kbest ≤ xs.length
  · have hlen : (smallest kbest xs).length = kbest := by
      rw [length_smallest]
      omega
    have hbest : (smallest kbest xs)[0]? = some _ := List.getElem?_eq_getElem (by omega)
    have hlast : (smallest kbest xs)[kbest - 1]? = some _ := List.getElem?_eq_getElem (by omega)
    rw [if_pos hfull, h.full hfull, hbest, hlast]
    exact ⟨_, rfl, fun hclose => ⟨hfull, _, _, rfl, rfl, hclose⟩,
      fun ⟨_, _, _, hb, hl, hclose⟩ => by cases hb; cases hl; exact hclose⟩
  · rw [if_neg hfull]
    exact ⟨false, rfl, fun hfalse => absurd hfalse Bool.false_ne_true, fun hconv =>
      absurd hconv.1 hfull⟩

omit [LinearOrder V] in
theorem length_samples (measured : Nat → V) (n : Nat) : (samples measured n).length = n := by
  rw [samples, List.length_map, List.length_range]

omit [LinearOrder V] in
theorem samples_succ (measured : Nat → V) (n : Nat) :
    samples measured (n + 1) = samples measured n ++ [measured n] := by
  rw [samples, List.range_succ, List.map_append]
  rfl

/-- The loop ends at the first number of samples after which it may. -/
theorem fcycLoop_stops (hk : 0 < kbest) (close : V → V → Bool) (measured : Nat → V) {fuel : Nat} :
    ∀ {n : Nat} {s : Sampler V},
    Holds zero kbest (samples measured n) s → maxsamples - n < fuel →
      ∃ m s', fcycLoop kbest maxsamples close measured fuel s = some s' ∧ n < m ∧
        Holds zero kbest (samples measured m) s' ∧
          Stops kbest maxsamples close (samples measured m) ∧
        ∀ i, n < i → i < m → ¬ Stops kbest maxsamples close (samples measured i) := by
  induction fuel with
  | zero =>
    intro n s _ hfuel
    omega
  | succ fuel ih =>
    intro n s h hfuel
    have hcount : s.samplecount = n := h.count.trans (length_samples measured n)
    obtain ⟨s₁, hadd, h₁⟩ := h.addSample hk (measured n)
    rw [← samples_succ] at h₁
    obtain ⟨converged, hconv, hiff⟩ := h₁.hasConverged hk close
    have hcount₁ : s₁.samplecount = n + 1 := h₁.count.trans (length_samples measured (n + 1))
    have hstops : Stops kbest maxsamples close (samples measured (n + 1)) ↔
        converged = true ∨ maxsamples ≤ n + 1 := by
      rw [Stops, hiff, length_samples]
    have hrun : fcycLoop kbest maxsamples close measured (fuel + 1) s =
        if !converged ∧ n + 1 < maxsamples then
          fcycLoop kbest maxsamples close measured fuel s₁ else some s₁ := by
      rw [fcycLoop, hcount, hadd]
      show (hasConverged kbest close s₁).bind _ = _
      rw [hconv, Option.bind_some, hcount₁]
      rfl
    -- another round, or this one was the last
    by_cases hgo : !converged ∧ n + 1 < maxsamples
    · obtain ⟨m, s', hloop, hlt, h', hstop, hfirst⟩ := ih h₁ (by omega)
      refine ⟨m, s', ?_, by omega, h', hstop, fun i hi him => ?_⟩
      · rw [hrun, if_pos hgo, hloop]
      · rcases Nat.lt_or_ge (n + 1) i with hlater | hthis
        · exact hfirst i hlater him
        · obtain rfl : i = n + 1 := by omega
          rw [hstops]
          rintro (htrue | hmax)
          · rw [htrue] at hgo
            exact absurd hgo.1 (by decide)
          · omega
    · refine ⟨n + 1, s₁, ?_, Nat.lt_succ_self n, h₁, hstops.mpr ?_, fun i hi hin => by omega⟩
      · rw [hrun, if_neg hgo]
      · cases converged with
        | true => exact .inl rfl
        | false => exact .inr (Nat.not_lt.mp fun hlt => hgo ⟨rfl, hlt⟩)

/-- With a positive `kbest`, the measurement ends after the first samples that
    have converged, or after `maxsamples` of them (but not without any), and
    its result is the smallest of these samples. -/
theorem fcyc_best (zero : V) (hk : 0 < kbest) (maxsamples : Nat) (close : V → V → Bool)
    (measured : Nat → V) :
    ∃ n best, fcyc zero kbest maxsamples close measured = some best ∧
      0 < n ∧ n ≤ max 1 maxsamples ∧ Stops kbest maxsamples close (samples measured n) ∧
      (∀ i, 0 < i → i < n → ¬ Stops kbest maxsamples close (samples measured i)) ∧
      best ∈ samples measured n ∧ ∀ v ∈ samples measured n, best ≤ v := by
  obtain ⟨n, s, hrun, hpos, h, hstop, hfirst⟩ :=
    @fcycLoop_stops V _ zero kbest maxsamples hk close measured (maxsamples + 1) 0
      (initSampler zero kbest)
      (holds_initSampler zero kbest) (by omega)
  have hlen := length_samples measured n
  -- `maxsamples` of them are enough, but one is always taken
  have hbound : n ≤ max 1 maxsamples := by
    by_contra hlt
    refine hfirst (max 1 maxsamples) (by omega) (by omega) (.inr ?_)
    rw [length_samples]
    exact Nat.le_max_right 1 maxsamples
  have hne : 0 < (smallest kbest (samples measured n)).length := by
    rw [length_smallest, hlen]
    omega
  obtain ⟨best, rest, hbest⟩ := List.exists_cons_of_length_pos hne
  obtain ⟨hmem, hleast⟩ :=
    head_smallest (show (smallest kbest (samples measured n)).head? = some best by rw [hbest]; rfl)
  refine ⟨n, best, ?_, hpos, hbound, hstop, hfirst, hmem, hleast⟩
  unfold fcyc
  rw [hrun]
  show s.values[0]? = some best
  rw [h.values, hbest]
  rfl

/-- Samples that are close when they differ by at most one. -/
theorem fcyc_best_three :
    ∃ n best, fcyc 0 3 20 (fun a b => b ≤ a + 1) (fun i => [9, 5, 7, 8, 5, 6, 1].getD i 0) =
      some best ∧
    0 < n ∧ n ≤ 20 ∧ best ∈ samples (fun i => [9, 5, 7, 8, 5, 6, 1].getD i 0) n := by
  obtain ⟨n, best, hrun, hpos, hbound, _, _, hmem, _⟩ :=
    fcyc_best 0 (by decide : 0 < 3) 20 (fun a b => b ≤ a + 1) fun i =>
      [9, 5, 7, 8, 5, 6, 1].getD i 0
  exact ⟨n, best, hrun, hpos, hbound, hmem⟩

example : fcyc 0 3 20 (fun a b => b ≤ a + 1) (fun i => [9, 5, 7, 8, 5, 6, 1].getD i 0) =
    some 5 := by
  decide

end MallocLab
