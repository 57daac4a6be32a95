import Mathlib.Data.List.Sort

/-! # The Smallest Elements of a List

    `smallest k xs` are the `k` smallest elements of `xs`, in order. When an
    element is added to the list, they are updated without the rest of it
    (`smallest_cons`): it is inserted when there are fewer than `k`, it takes
    the place of the largest when it is smaller, and nothing is done
    otherwise.

    An element is inserted into a sorted list from the right, by exchanging it
    with its neighbour as long as that is larger (`insert_right`,
    `insert_stop`).
-/

namespace Smallest

variable {α : Type*} [LinearOrder α]

abbrev Sorted (l : List α) : Prop := l.Pairwise (· ≤ ·)

abbrev insertInto (x : α) (l : List α) : List α := l.orderedInsert (· ≤ ·) x

abbrev sort (xs : List α) : List α := xs.insertionSort (· ≤ ·)

/-! ## Section 1: Insertion -/

/-- The sorted list with `x` is unique. -/
theorem insert_unique {x : α} {l l' : List α} (h : Sorted l) (h' : Sorted l')
    (hperm : l'.Perm (x :: l)) :
    insertInto x l = l' :=
  ((List.perm_orderedInsert (· ≤ ·) x l).trans hperm.symm).eq_of_pairwise' (h.orderedInsert x l) h'

/-- When the last element is not smaller, it stays the last one. -/
theorem insert_right {x a : α} {l : List α} (h : Sorted (l ++ [a])) (hxa : x ≤ a) :
    insertInto x (l ++ [a]) = insertInto x l ++ [a] := by
  obtain ⟨hl, _, hla⟩ := List.pairwise_append.mp h
  refine insert_unique h
    (List.pairwise_append.mpr ⟨hl.orderedInsert x l, List.pairwise_singleton _ a, ?_⟩) ?_
  · intro y hy b hb
    rw [List.mem_singleton.mp hb]
    rcases (List.mem_orderedInsert _).mp hy with rfl | hy
    · exact hxa
    · exact hla y hy a (List.mem_singleton_self a)
  · exact (List.perm_orderedInsert (· ≤ ·) x l).append_right [a]

/-- When no element is larger, `x` becomes the last one. -/
theorem insert_stop {x : α} {l : List α} (h : Sorted l) (hx : ∀ y ∈ l, y ≤ x) :
    insertInto x l = l ++ [x] := by
  refine insert_unique h (List.pairwise_append.mpr ⟨h, List.pairwise_singleton _ x, ?_⟩)
    (List.perm_append_singleton x l)
  intro y hy b hb
  rw [List.mem_singleton.mp hb]
  exact hx y hy

/-- The elements that are not larger stay where they are. -/
theorem insert_append {x : α} {l l' : List α} (h : Sorted (l ++ l')) (hx : ∀ y ∈ l, y ≤ x) :
    insertInto x (l ++ l') = l ++ insertInto x l' := by
  obtain ⟨hl, hl', hcross⟩ := List.pairwise_append.mp h
  refine insert_unique h (List.pairwise_append.mpr ⟨hl, hl'.orderedInsert x l', ?_⟩) ?_
  · intro y hy b hb
    rcases (List.mem_orderedInsert _).mp hb with rfl | hb
    · exact hx y hy
    · exact hcross y hy b hb
  · exact ((List.perm_orderedInsert (· ≤ ·) x l').append_left l).trans List.perm_middle

/-- An element that belongs to the first ones is inserted among them. -/
theorem take_insert {x a : α} {l : List α} {k : Nat} (ha : l[k]? = some a) (hxa : x < a) :
    (insertInto x l).take (k + 1) = insertInto x (l.take k) := by
  induction l generalizing k with
  | nil => cases ha
  | cons b l ih =>
    cases k with
    | zero =>
      cases ha
      rw [insertInto, List.orderedInsert_cons_of_le _ l hxa.le]
      rfl
    | succ k =>
      have ih := ih ha
      rw [List.take_succ_cons]
      unfold insertInto at ih ⊢
      rw [List.orderedInsert_cons, List.orderedInsert_cons]
      split
      · rfl
      · rw [List.take_succ_cons, ih]

/-! ## Section 2: The smallest elements -/

def smallest (k : Nat) (xs : List α) : List α := (sort xs).take k

variable {k : Nat} {xs ys : List α} {x : α}

theorem sorted_sort (xs : List α) : Sorted (sort xs) := List.pairwise_insertionSort (· ≤ ·) xs

theorem sorted_smallest (k : Nat) (xs : List α) : Sorted (smallest k xs) := (sorted_sort xs).take

theorem length_smallest (k : Nat) (xs : List α) : (smallest k xs).length = min k xs.length := by
  rw [smallest, List.length_take, List.length_insertionSort]

/-- The order of the elements does not matter. -/
theorem smallest_perm (h : xs.Perm ys) : smallest k xs = smallest k ys := by
  have hperm : (sort xs).Perm (sort ys) :=
    (List.perm_insertionSort (· ≤ ·) xs).trans (h.trans (List.perm_insertionSort (· ≤ ·) ys).symm)
  rw [smallest, smallest, hperm.eq_of_pairwise' (sorted_sort xs) (sorted_sort ys)]

/-- There is room for another one. -/
theorem smallest_cons_of_lt (h : xs.length < k) :
    smallest k (x :: xs) = insertInto x (smallest k xs) := by
  unfold smallest
  rw [List.take_of_length_le, List.take_of_length_le]
  · rfl
  · rw [List.length_insertionSort]
    omega
  · rw [List.length_insertionSort]
    exact h

/-- The largest of the smallest makes room. -/
theorem smallest_cons_of_small {a : α} (ha : (smallest (k + 1) xs)[k]? = some a) (hxa : x < a) :
    smallest (k + 1) (x :: xs) = insertInto x ((smallest (k + 1) xs).take k) := by
  unfold smallest at ha ⊢
  rw [List.getElem?_take_of_lt (Nat.lt_succ_self k)] at ha
  rw [List.take_take, Nat.min_eq_left (Nat.le_succ k)]
  exact take_insert ha hxa

/-- Nothing changes. -/
theorem smallest_cons_of_large {a : α} (ha : (smallest (k + 1) xs)[k]? = some a) (hax : a ≤ x) :
    smallest (k + 1) (x :: xs) = smallest (k + 1) xs := by
  have hsorted := sorted_sort xs
  unfold smallest at ha ⊢
  obtain ⟨hk, hlast⟩ := List.getElem?_eq_some_iff.mp ha
  rw [← List.take_append_drop (k + 1) (sort xs)] at hsorted
  -- the last of them is the largest
  have hle : ∀ y ∈ (sort xs).take (k + 1), y ≤ x := by
    intro y hy
    obtain ⟨i, hi, rfl⟩ := List.getElem_of_mem hy
    have hfirst := (List.pairwise_append.mp hsorted).1
    rcases Nat.lt_or_ge i k with hlt | hge
    · have hik := List.pairwise_iff_getElem.mp hfirst i k hi hk hlt
      rw [hlast] at hik
      exact hik.trans hax
    · have hik : i = k := by
        rw [List.length_take] at hi
        omega
      subst hik
      rw [hlast]
      exact hax
  show (insertInto x (sort xs)).take (k + 1) = _
  have hlen : ((sort xs).take (k + 1)).length = k + 1 := by
    rw [List.length_take] at hk ⊢
    omega
  conv_lhs => rw [← List.take_append_drop (k + 1) (sort xs), insert_append hsorted hle]
  rw [List.take_append_of_le_length hlen.ge, List.take_of_length_le hlen.le]

/-- The first one is the least. -/
theorem head_smallest {a : α} (h : (smallest k xs).head? = some a) : a ∈ xs ∧ ∀ y ∈ xs, a ≤ y := by
  cases k with
  | zero => cases h
  | succ k =>
    have hhead : (sort xs).head? = some a := by
      rw [← h, smallest]
      cases sort xs <;> rfl
    obtain ⟨l, hl⟩ := List.head?_eq_some_iff.mp hhead
    have hmem : ∀ y, y ∈ xs ↔ y ∈ a :: l := fun y => by rw [← hl, List.mem_insertionSort]
    have hsorted := sorted_sort xs
    rw [hl] at hsorted
    refine ⟨(hmem a).mpr List.mem_cons_self, fun y hy => ?_⟩
    rcases List.mem_cons.mp ((hmem y).mp hy) with rfl | hy
    · exact le_refl y
    · exact List.rel_of_pairwise_cons hsorted hy

end Smallest
