import Mathlib.Data.List.AList

/-! # Keyed tables

    Two operations on Mathlib's association lists `AList` (finite tables
    with at most one entry per key): changing the values in place, and
    testing all entries.
-/

namespace AList

universe u v

variable {α : Type u} {β : α → Type v} [DecidableEq α]

/-- Change every value of the table in place. -/
def mapVals (f : ∀ a, β a → β a) (s : AList β) : AList β where
  entries := s.entries.map fun e => ⟨e.1, f e.1 e.2⟩
  nodupKeys := by
    have hkeys : (s.entries.map fun e => (⟨e.1, f e.1 e.2⟩ : Sigma β)).keys = s.entries.keys := by
      simp [List.keys, Function.comp_def]
    rw [List.NodupKeys, hkeys]
    exact s.nodupKeys

@[simp] theorem lookup_mapVals (f : ∀ a, β a → β a) (s : AList β) (a : α) :
    (s.mapVals f).lookup a = (s.lookup a).map (f a) := by
  ext b
  rw [Option.map_eq_some_iff]
  constructor
  · intro h
    obtain ⟨⟨a', c⟩, hmem, heq⟩ := List.mem_map.mp (AList.mem_lookup_iff.mp h)
    obtain rfl : a' = a := congrArg Sigma.fst heq
    exact ⟨c, AList.mem_lookup_iff.mpr hmem, eq_of_heq (Sigma.mk.inj heq).2⟩
  · rintro ⟨c, hc, rfl⟩
    exact AList.mem_lookup_iff.mpr
      (List.mem_map.mpr ⟨⟨a, c⟩, AList.mem_lookup_iff.mp hc, rfl⟩)

@[simp] theorem mem_mapVals {f : ∀ a, β a → β a} {s : AList β} {a : α} :
    a ∈ s.mapVals f ↔ a ∈ s := by
  rw [← AList.lookup_isSome, ← AList.lookup_isSome, lookup_mapVals, Option.isSome_map]

/-- Does every entry of the table pass the test? -/
def all (p : ∀ a, β a → Bool) (s : AList β) : Bool := s.entries.all fun e => p e.1 e.2

theorem all_iff {p : ∀ a, β a → Bool} {s : AList β} :
    s.all p = true ↔ ∀ a b, s.lookup a = some b → p a b = true := by
  rw [all, List.all_eq_true]
  constructor
  · intro h a b hb
    exact h ⟨a, b⟩ (AList.mem_lookup_iff.mp hb)
  · rintro h ⟨a, b⟩ he
    exact h a b (AList.mem_lookup_iff.mpr he)

end AList
