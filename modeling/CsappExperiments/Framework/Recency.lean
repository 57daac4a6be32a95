import Mathlib.Data.Finset.Card
import Mathlib.Data.List.Basic
import Mathlib.Data.List.Nodup

/-! # Recency Stacks

    The elements of a history in the order of their last occurrence, most
    recent first (`stack`). It is maintained by moving the accessed element
    to the front (`touch`).

    The depth of an element in the stack is the number of distinct elements
    that have occurred since its last occurrence (`mem_take_stack`). So a
    buffer that keeps the `n` most recent elements holds an element exactly
    when fewer than `n` others have occurred since, and such a buffer can be
    updated without the rest of the stack (`take_stack_append`).
-/

namespace Recency

variable {α : Type*} [DecidableEq α]

/-! ## Section 1: Moving to the front -/

/-- Move `a` to the front of the list, or put it there. -/
def touch (a : α) (l : List α) : List α := a :: l.erase a

@[simp] theorem mem_touch {a b : α} {l : List α} : b ∈ touch a l ↔ b = a ∨ b ∈ l := by
  unfold touch
  by_cases hb : b = a
  · simp [hb]
  · simp [hb, List.mem_erase_of_ne hb]

theorem nodup_touch {a : α} {l : List α} (h : l.Nodup) : (touch a l).Nodup :=
  List.nodup_cons.mpr ⟨h.not_mem_erase, h.erase a⟩

theorem length_touch_of_mem {a : α} {l : List α} (h : a ∈ l) : (touch a l).length = l.length := by
  have hpos : 0 < l.length := List.length_pos_of_mem h
  rw [touch, List.length_cons, List.length_erase_of_mem h]
  omega

theorem touch_of_notMem {a : α} {l : List α} (h : a ∉ l) : touch a l = a :: l := by
  rw [touch, List.erase_of_not_mem h]

/-! ## Section 2: The stack of a history -/

/-- The elements of `h`, the one that occurred last first. -/
def stack (h : List α) : List α := h.foldl (fun l a => touch a l) []

@[simp] theorem stack_nil : stack ([] : List α) = [] := rfl

@[simp] theorem stack_append_singleton (h : List α) (a : α) :
    stack (h ++ [a]) = touch a (stack h) := by
  simp [stack]

theorem nodup_stack (h : List α) : (stack h).Nodup := by
  induction h using List.reverseRecOn with
  | nil => exact List.nodup_nil
  | append_singleton h a ih =>
    rw [stack_append_singleton]
    exact nodup_touch ih

@[simp] theorem mem_stack {a : α} {h : List α} : a ∈ stack h ↔ a ∈ h := by
  induction h using List.reverseRecOn with
  | nil => simp
  | append_singleton h b ih => simp [ih, or_comm]

theorem length_stack (h : List α) : (stack h).length = h.toFinset.card := by
  rw [← List.toFinset_card_of_nodup (nodup_stack h)]
  congr 1
  ext a
  simp

/-- What occurs in `new` comes before the rest of what occurs in `old`. -/
theorem stack_append (old new : List α) :
    stack (old ++ new) = stack new ++ (stack old).filter fun a => a ∉ new := by
  induction new using List.reverseRecOn with
  | nil => simp
  | append_singleton new b ih =>
    rw [← List.append_assoc, stack_append_singleton, stack_append_singleton, ih]
    by_cases hb : b ∈ new
    · -- `b` is moved within the first part
      have hfilter : ((stack old).filter fun a => a ∉ new ++ [b]) =
          (stack old).filter fun a => a ∉ new := by
        refine List.filter_congr ?_
        intro a _
        have : a ∈ new ++ [b] ↔ a ∈ new := by
          constructor
          · intro ha
            rcases List.mem_append.mp ha with ha | ha
            · exact ha
            · rw [List.mem_singleton.mp ha]
              exact hb
          · exact List.mem_append_left _
        simp only [this]
      rw [hfilter, touch, touch, List.erase_append_left _ (mem_stack.mpr hb), List.cons_append]
    · -- `b` is taken out of the second part
      have hnot : b ∉ stack new := by simpa using hb
      have hfilter : ((stack old).filter fun a => a ∉ new ++ [b]) =
          ((stack old).filter fun a => a ∉ new).erase b := by
        rw [((nodup_stack old).filter _).erase_eq_filter, List.filter_filter]
        refine List.filter_congr ?_
        intro a _
        by_cases hab : a = b <;> simp [hab]
      rw [hfilter, touch_of_notMem hnot, touch, List.erase_append_right _ hnot, List.cons_append]

/-! ## Section 3: Depth -/

/-- The last occurrence of an element splits the history. -/
theorem exists_last_occurrence {a : α} {h : List α} (ha : a ∈ h) :
    ∃ old recent, h = old ++ a :: recent ∧ a ∉ recent := by
  induction h using List.reverseRecOn with
  | nil => cases ha
  | append_singleton h b ih =>
    by_cases hab : a = b
    · subst hab
      exact ⟨h, [], rfl, List.not_mem_nil⟩
    · have hmem : a ∈ h := by simpa [hab] using ha
      obtain ⟨old, recent, rfl, hnot⟩ := ih hmem
      exact ⟨old, recent ++ [b], by simp, by simp [hnot, hab]⟩

/-- There is only one such split. -/
theorem last_occurrence_unique {a : α} {old old' recent recent' : List α} (hnot : a ∉ recent)
    (hnot' : a ∉ recent') (heq : old ++ a :: recent = old' ++ a :: recent') : recent = recent' := by
  -- what follows the last occurrence is what the reversed list starts with
  have hwhile : ∀ old recent : List α, a ∉ recent →
      (old ++ a :: recent).reverse.takeWhile (fun b => decide (b ≠ a)) = recent.reverse := by
    intro old recent hnot
    have hall : ∀ b ∈ recent.reverse, decide (b ≠ a) = true := by
      intro b hb
      rw [decide_eq_true_eq]
      rintro rfl
      exact hnot (List.mem_reverse.mp hb)
    rw [List.reverse_append, List.reverse_cons, List.append_assoc,
      List.takeWhile_append_of_pos hall]
    simp
  rw [← List.reverse_inj, ← hwhile old recent hnot, heq, hwhile old' recent' hnot']

/-- An element lies below exactly those that have occurred since its last
    occurrence. -/
theorem stack_last_occurrence {a : α} (old : List α) {recent : List α} (hnot : a ∉ recent) :
    ∃ below, stack (old ++ a :: recent) = stack recent ++ a :: below := by
  have hsplit : old ++ a :: recent = (old ++ [a]) ++ recent := by simp
  rw [hsplit, stack_append, stack_append_singleton, touch,
    List.filter_cons_of_pos (by simpa using hnot)]
  exact ⟨_, rfl⟩

/-- The `n` most recent elements are those after whose last occurrence fewer
    than `n` distinct elements have occurred. -/
theorem mem_take_stack {a : α} {n : Nat} {h : List α} :
    a ∈ (stack h).take n ↔
      ∃ old recent, h = old ++ a :: recent ∧ a ∉ recent ∧ recent.toFinset.card < n := by
  constructor
  · intro ha
    obtain ⟨old, recent, rfl, hnot⟩ :=
      exists_last_occurrence (mem_stack.mp (List.mem_of_mem_take ha))
    refine ⟨old, recent, rfl, hnot, ?_⟩
    obtain ⟨below, heq⟩ := stack_last_occurrence old hnot
    by_contra hge
    -- the first `n` elements all occur in `recent`
    have hle : n ≤ (stack recent).length := by rw [length_stack]; omega
    rw [heq, List.take_append_of_le_length hle] at ha
    exact hnot (mem_stack.mp (List.mem_of_mem_take ha))
  · rintro ⟨old, recent, rfl, hnot, hlt⟩
    obtain ⟨below, heq⟩ := stack_last_occurrence old hnot
    obtain ⟨m, hm⟩ : ∃ m, n = (stack recent).length + (m + 1) :=
      ⟨n - recent.toFinset.card - 1, by rw [length_stack]; omega⟩
    rw [heq, hm, List.take_length_add_append]
    simp

/-- The same for the part of a history that passes a test `p`. -/
theorem mem_take_stack_filter {p : α → Bool} {a : α} (ha : p a = true) {n : Nat} {h : List α} :
    a ∈ (stack (h.filter p)).take n ↔
      ∃ old recent, h = old ++ a :: recent ∧ a ∉ recent ∧ (recent.filter p).toFinset.card < n := by
  rw [mem_take_stack]
  constructor
  · rintro ⟨old', recent', heq, hnot', hlt⟩
    have hmem : a ∈ h := by
      have hmem' : a ∈ h.filter p := by rw [heq]; simp
      exact List.mem_of_mem_filter hmem'
    obtain ⟨old, recent, rfl, hnot⟩ := exists_last_occurrence hmem
    refine ⟨old, recent, rfl, hnot, ?_⟩
    -- both splits are at the last occurrence
    have hnot'' : a ∉ recent.filter p := fun hmem => hnot (List.mem_of_mem_filter hmem)
    rw [List.filter_append, List.filter_cons_of_pos ha] at heq
    rw [last_occurrence_unique hnot'' hnot' heq]
    exact hlt
  · rintro ⟨old, recent, rfl, hnot, hlt⟩
    refine ⟨old.filter p, recent.filter p, ?_, ?_, hlt⟩
    · rw [List.filter_append, List.filter_cons_of_pos ha]
    · exact fun hmem => hnot (List.mem_of_mem_filter hmem)

/-! ## Section 4: Bounded stacks -/

/-- A buffer of the `n` most recent elements is updated on its own: an
    element in it is moved to the front, another one is put in front and
    pushes the last one out. -/
theorem take_touch {l : List α} {n : Nat} (hn : 1 ≤ n) (a : α) :
    (touch a l).take n = if a ∈ l.take n then touch a (l.take n) else (a :: l.take n).take n := by
  obtain ⟨m, rfl⟩ : ∃ m, n = m + 1 := ⟨n - 1, by omega⟩
  split
  · next hmem =>
    have hlen : 0 < (l.take (m + 1)).length := List.length_pos_of_mem hmem
    -- the element is erased from the part that is kept
    have herase : (l.erase a).take m = (l.take (m + 1)).erase a := by
      conv_lhs => rw [← List.take_append_drop (m + 1) l, List.erase_append_left _ hmem]
      have hle : ((l.take (m + 1)).erase a).length ≤ m := by
        rw [List.length_erase_of_mem hmem]
        have := List.length_take_le (m + 1) l
        omega
      by_cases hshort : l.length ≤ m + 1
      · rw [List.drop_eq_nil_of_le hshort, List.append_nil, List.take_of_length_le hle]
      · have heq : ((l.take (m + 1)).erase a).length = m := by
          rw [List.length_erase_of_mem hmem, List.length_take]
          omega
        rw [List.take_append_of_le_length heq.ge, List.take_of_length_le hle]
    rw [touch, List.take_succ_cons, herase, touch]
  · next hnot =>
    -- the element is erased, if at all, from the part that is cut off
    have herase : (l.erase a).take m = l.take m := by
      conv_lhs => rw [← List.take_append_drop (m + 1) l, List.erase_append_right _ hnot]
      by_cases hshort : l.length ≤ m + 1
      · rw [List.drop_eq_nil_of_le hshort, List.erase_nil, List.append_nil, List.take_take]
        simp
      · have hlen : m ≤ (l.take (m + 1)).length := by rw [List.length_take]; omega
        rw [List.take_append_of_le_length hlen, List.take_take]
        simp
    rw [touch, List.take_succ_cons, List.take_succ_cons, herase, List.take_take]
    simp

/-- One more access, seen by a buffer of the `n` most recent elements. -/
theorem take_stack_append {n : Nat} (hn : 1 ≤ n) (h : List α) (a : α) :
    (stack (h ++ [a])).take n =
      if a ∈ (stack h).take n then touch a ((stack h).take n)
      else (a :: (stack h).take n).take n := by
  rw [stack_append_singleton]
  exact take_touch hn a

end Recency
