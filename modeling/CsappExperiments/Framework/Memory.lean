import Mathlib.Algebra.Order.Ring.Nat
import Mathlib.Data.List.Pairwise
import Mathlib.Data.Set.Function
import Mathlib.Order.CompletePartialOrder
import Mathlib.Order.Interval.Set.Disjoint

/-! # Byte Memory

    A memory is a function from addresses to bytes. Ranges of it are read and
    overwritten as lists of bytes, and natural numbers are stored as their
    lowest bytes in little-endian order.

    What a write does not touch is stated with `Set.EqOn`, so that frame
    conditions about several ranges compose as facts about sets. Regions that
    lie one above the other (`Stacked`) are disjoint.
-/

namespace ByteMemory

abbrev Byte : Type := BitVec 8

abbrev Memory : Type := Nat → Byte

/-! ## Section 1: Ranges -/

/-- The `n` bytes from `a` on. -/
def read (m : Memory) (a n : Nat) : List Byte := (List.range n).map fun i => m (a + i)

/-- Overwrite the bytes from `a` on. -/
def write (m : Memory) (a : Nat) (bytes : List Byte) : Memory :=
  fun x => if a ≤ x then (bytes[x - a]?).getD (m x) else m x

@[simp] theorem length_read (m : Memory) (a n : Nat) : (read m a n).length = n := by
  simp [read]

theorem getElem?_read {m : Memory} {a n i : Nat} (h : i < n) :
    (read m a n)[i]? = some (m (a + i)) := by
  simp [read, h]

/-- Two memories agree on a range exactly when the same is read there. -/
theorem read_eq_iff {m m' : Memory} {a n : Nat} :
    read m a n = read m' a n ↔ Set.EqOn m m' (Set.Ico a (a + n)) := by
  unfold read
  rw [List.map_inj_left]
  constructor
  · intro h x hx
    have hi := h (x - a) (List.mem_range.mpr (by have := hx.1; have := hx.2; omega))
    rwa [Nat.add_sub_cancel' hx.1] at hi
  · intro h i hi
    have hlt : i < n := List.mem_range.mp hi
    exact h ⟨Nat.le_add_right a i, Nat.add_lt_add_left hlt a⟩

/-- A write changes its range only. -/
theorem eqOn_write (m : Memory) (a : Nat) (bytes : List Byte) :
    Set.EqOn (write m a bytes) m (Set.compl (Set.Ico a (a + bytes.length))) := by
  intro x hx
  show (if a ≤ x then (bytes[x - a]?).getD (m x) else m x) = m x
  split
  · next hle =>
    have hge : ¬ x < a + bytes.length := fun hlt => hx ⟨hle, hlt⟩
    rw [List.getElem?_eq_none (by omega)]
    rfl
  · rfl

theorem eqOn_write_of_disjoint (m : Memory) {a : Nat} {bytes : List Byte} {S : Set Nat}
    (h : Disjoint S (Set.Ico a (a + bytes.length))) : Set.EqOn (write m a bytes) m S :=
  (eqOn_write m a bytes).mono h.subset_compl_right

/-- Nothing below the written range changes. -/
theorem eqOn_write_below (m : Memory) {a hi : Nat} (h : hi ≤ a) (bytes : List Byte) :
    Set.EqOn (write m a bytes) m (Set.Iio hi) :=
  eqOn_write_of_disjoint m ((Set.Iio_disjoint_Ici h).mono_right Set.Ico_subset_Ici_self)

theorem read_write (m : Memory) (a : Nat) (bytes : List Byte) :
    read (write m a bytes) a bytes.length = bytes := by
  apply List.ext_getElem
  · rw [length_read]
  · intro i hi hi'
    simp only [read, write, List.getElem_map, List.getElem_range]
    rw [if_pos (Nat.le_add_right a i), Nat.add_sub_cancel_left, List.getElem?_eq_getElem hi']
    rfl

/-! ## Section 2: Numbers -/

/-- The lowest `k` bytes of a number. -/
def leBytes : Nat → Nat → List Byte
  | 0, _ => []
  | k + 1, n => BitVec.ofNat 8 n :: leBytes k (n / 256)

/-- The number with these bytes, the lowest one first. -/
def ofLeBytes : List Byte → Nat
  | [] => 0
  | b :: bytes => b.toNat + 256 * ofLeBytes bytes

@[simp] theorem length_leBytes (k n : Nat) : (leBytes k n).length = k := by
  induction k generalizing n with
  | zero => rfl
  | succ k ih => rw [leBytes, List.length_cons, ih]

theorem ofLeBytes_leBytes (k n : Nat) : ofLeBytes (leBytes k n) = n % 256 ^ k := by
  induction k generalizing n with
  | zero => rw [Nat.pow_zero, Nat.mod_one]; rfl
  | succ k ih =>
    have hpow : 256 ^ (k + 1) = 256 * 256 ^ k := Nat.pow_succ'
    rw [leBytes, ofLeBytes, ih, BitVec.toNat_ofNat, hpow]
    exact (Nat.mod_mul).symm

/-! ## Section 3: Regions one above the other -/

section Regions

variable {α : Type*} [LinearOrder α]

/-- These regions, the topmost one first, lie one above the other between
    `lo` and `hi`. -/
def Stacked (lo hi : α) : List (Set α) → Prop
  | [] => lo ≤ hi
  | S :: rest => ∃ mid, mid ≤ hi ∧ S ⊆ Set.Ico mid hi ∧ Stacked lo mid rest

theorem Stacked.le {lo hi : α} {regions : List (Set α)} (h : Stacked lo hi regions) : lo ≤ hi := by
  induction regions generalizing hi with
  | nil => exact h
  | cons S rest ih =>
    obtain ⟨mid, hmid, _, hrest⟩ := h
    exact le_trans (ih hrest) hmid

theorem Stacked.push {lo mid hi : α} {regions : List (Set α)} (h : Stacked lo mid regions)
    {S : Set α} (hmid : mid ≤ hi) (hS : S ⊆ Set.Ico mid hi) : Stacked lo hi (S :: regions) :=
  ⟨mid, hmid, hS, h⟩

theorem Stacked.subset {lo hi : α} {regions : List (Set α)} (h : Stacked lo hi regions) :
    ∀ S ∈ regions, S ⊆ Set.Ico lo hi := by
  induction regions generalizing hi with
  | nil => exact fun S hS => absurd hS List.not_mem_nil
  | cons T rest ih =>
    obtain ⟨mid, hmid, hT, hrest⟩ := h
    intro S hS
    rcases List.mem_cons.mp hS with rfl | hS
    · exact hT.trans (Set.Ico_subset_Ico_left hrest.le)
    · exact (ih hrest S hS).trans (Set.Ico_subset_Ico_right hmid)

/-- Such regions are disjoint. -/
theorem Stacked.pairwise {lo hi : α} {regions : List (Set α)} (h : Stacked lo hi regions) :
    regions.Pairwise Disjoint := by
  induction regions generalizing hi with
  | nil => exact List.Pairwise.nil
  | cons S rest ih =>
    obtain ⟨mid, _, hS, hrest⟩ := h
    refine List.pairwise_cons.mpr ⟨?_, ih hrest⟩
    intro T hT
    rw [Set.disjoint_left]
    intro x hxS hxT
    exact absurd (hrest.subset T hT hxT).2 (not_lt.mpr (hS hxS).1)

/-- Neither end of one interval lies in another exactly when they are
    disjoint, or the other lies between the ends of the one. -/
theorem ends_notMem_iff {a b : α} (hab : a ≤ b) (c d : α) :
    a ∉ Set.Icc c d ∧ b ∉ Set.Icc c d ↔ Disjoint (Set.Icc a b) (Set.Icc c d) ∨
      Set.Icc c d ⊆ Set.Ioo a b := by
  constructor
  · rintro ⟨ha, hb⟩
    by_cases hda : d < a
    · left
      rw [Set.disjoint_left]
      intro x hx hx'
      exact absurd (lt_of_le_of_lt hx'.2 hda) (not_lt.mpr hx.1)
    by_cases hbc : b < c
    · left
      rw [Set.disjoint_left]
      intro x hx hx'
      exact absurd (lt_of_le_of_lt hx.2 hbc) (not_lt.mpr hx'.1)
    · right
      have hac : a < c := not_le.mp fun hca => ha ⟨hca, not_lt.mp hda⟩
      have hdb : d < b := not_le.mp fun hbd => hb ⟨not_lt.mp hbc, hbd⟩
      exact fun x hx => ⟨lt_of_lt_of_le hac hx.1, lt_of_le_of_lt hx.2 hdb⟩
  · rintro (hdisjoint | hinside)
    · rw [Set.disjoint_left] at hdisjoint
      exact ⟨hdisjoint ⟨le_refl a, hab⟩, hdisjoint ⟨hab, le_refl b⟩⟩
    · exact ⟨fun ha => lt_irrefl a (hinside ha).1, fun hb => lt_irrefl b (hinside hb).2⟩

end Regions

/-- Regions of different owners are disjoint. -/
theorem disjoint_of_ne {α ι : Type*} {owned : ι → List (Set α)} {owners : List ι}
    (h : (owners.flatMap owned).Pairwise Disjoint) {i j : ι} (hi : i ∈ owners) (hj : j ∈ owners)
    (hne : i ≠ j) {S T : Set α} (hS : S ∈ owned i) (hT : T ∈ owned j) : Disjoint S T := by
  have hothers := (List.pairwise_flatMap.mp h).2
  have hsymm : Std.Symm fun i j => ∀ S ∈ owned i, ∀ T ∈ owned j, Disjoint S T :=
    ⟨fun i j h S hS T hT => (h T hT S hS).symm⟩
  exact hothers.forall hi hj hne S hS T hT

end ByteMemory
