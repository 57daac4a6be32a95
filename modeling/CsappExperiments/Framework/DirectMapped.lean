import Mathlib.Data.List.Basic

/-! # Direct-Mapped Buffers

    A buffer in which every element has one place: an element that is not
    there replaces the one that is. `misses` counts the replacements.

    How often a sequence misses depends only on which of its elements are the
    same and which share a place (`misses_map_congr`), so sequences that
    differ by a renaming miss equally often.
-/

namespace DirectMapped

variable {α κ : Type*} [DecidableEq α] [DecidableEq κ]

/-! ## Section 1: Replay -/

/-- `x` is put in its place. -/
def place (slot : α → κ) (buffer : κ → Option α) (x : α) : κ → Option α :=
  fun k => if k = slot x then some x else buffer k

def misses (slot : α → κ) (buffer : κ → Option α) : List α → Nat
  | [] => 0
  | x :: xs =>
    if buffer (slot x) = some x then misses slot buffer xs
    else misses slot (place slot buffer x) xs + 1

variable {slot : α → κ} {buffer : κ → Option α} {x : α} {xs : List α}

omit [DecidableEq α] in
theorem place_slot (slot : α → κ) (buffer : κ → Option α) (x y : α) :
    place slot buffer x (slot y) = if slot y = slot x then some x else buffer (slot y) := rfl

omit [DecidableEq α] in
/-- An element that is there may as well be put there again. -/
theorem place_of_hit (h : buffer (slot x) = some x) : place slot buffer x = buffer := by
  funext k
  unfold place
  split
  · next heq => rw [heq, h]
  · rfl

theorem misses_cons (slot : α → κ) (buffer : κ → Option α) (x : α) (xs : List α) :
    misses slot buffer (x :: xs) =
      misses slot (place slot buffer x) xs + if buffer (slot x) = some x then 0 else 1 := by
  rw [misses]
  split
  · next h => rw [place_of_hit h, Nat.add_zero]
  · rfl

/-- The buffer after a sequence. -/
def after (slot : α → κ) (buffer : κ → Option α) (xs : List α) : κ → Option α :=
  xs.foldl (place slot) buffer

theorem misses_append (slot : α → κ) (buffer : κ → Option α) (xs ys : List α) :
    misses slot buffer (xs ++ ys) =
      misses slot buffer xs + misses slot (after slot buffer xs) ys := by
  induction xs generalizing buffer with
  | nil => exact (Nat.zero_add _).symm
  | cons x xs ih =>
    rw [List.cons_append, misses_cons, misses_cons, ih]
    show _ = _ + _ + misses slot (after slot (place slot buffer x) xs) ys
    omega

theorem misses_le_length (slot : α → κ) (buffer : κ → Option α) (xs : List α) :
    misses slot buffer xs ≤ xs.length := by
  induction xs generalizing buffer with
  | nil => exact Nat.le_refl 0
  | cons x xs ih =>
    have hle := ih (place slot buffer x)
    rw [misses_cons, List.length_cons]
    split <;> omega

/-! ## Section 2: Renaming -/

section Renaming

variable {ι β μ : Type*} [DecidableEq β] [DecidableEq μ] {f : ι → α} {g : ι → β} {slot' : β → μ}
  {buffer' : μ → Option β} {is : List ι}

/-- Two sequences over the same indices miss equally often, when their
    elements coincide and share a place at the same indices, and the buffers
    hold the same of them. -/
theorem misses_map_congr (hsame : ∀ i ∈ is, ∀ j ∈ is, f i = f j ↔ g i = g j)
    (hslot : ∀ i ∈ is, ∀ j ∈ is, slot (f i) = slot (f j) ↔ slot' (g i) = slot' (g j))
    (hbuffer : ∀ i ∈ is, buffer (slot (f i)) = some (f i) ↔ buffer' (slot' (g i)) = some (g i)) :
    misses slot buffer (is.map f) = misses slot' buffer' (is.map g) := by
  induction is generalizing buffer buffer' with
  | nil => rfl
  | cons i is ih =>
    have hi : i ∈ i :: is := List.mem_cons_self
    rw [List.map_cons, List.map_cons, misses_cons, misses_cons]
    congr 1
    · refine ih (fun j hj k hk => hsame j (List.mem_cons_of_mem i hj) k (List.mem_cons_of_mem i hk))
        (fun j hj k hk => hslot j (List.mem_cons_of_mem i hj) k (List.mem_cons_of_mem i hk))
          fun j hj => ?_
      have hj' := List.mem_cons_of_mem i hj
      rw [place_slot, place_slot]
      by_cases heq : slot (f j) = slot (f i)
      · rw [if_pos heq, if_pos ((hslot j hj' i hi).mp heq), Option.some_inj, Option.some_inj]
        exact hsame i hi j hj'
      · rw [if_neg heq, if_neg (mt (hslot j hj' i hi).mpr heq)]
        exact hbuffer j hj'
    · by_cases hhit : buffer (slot (f i)) = some (f i)
      · rw [if_pos hhit, if_pos ((hbuffer i hi).mp hhit)]
      · rw [if_neg hhit, if_neg (mt (hbuffer i hi).mpr hhit)]

end Renaming

end DirectMapped
